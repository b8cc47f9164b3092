import Emend.Text.Basic

namespace Emend

inductive Atom
  | literal (c : Char)
  /-- A character of a name. -/
  | anyInName
  /-- Any number of characters of a name. -/
  | runInName
  /-- A character in one of the ranges, or in none of them; that may be a slash. -/
  | oneOf (negated : Bool) (ranges : List (Char × Char))
  /-- Nothing, or everything up to some slash. -/
  | leadingDirs
  /-- Nothing, or a slash and some of what follows it. -/
  | innerDirs
  /-- A slash, or the end of the text. -/
  | nameEnd
deriving DecidableEq, Repr

/-- For each place of a text, from before its first character to its end, whether a match ends there. -/
abbrev Ends := List Bool

namespace Ends

def start (t : Text) : Ends := true :: t.map fun _ => false

/-- The matches that go on over one character of a kind; `on` says whether one does so up to the first
place. -/
def one (kind : Char → Bool) (on : Bool) : Text → Ends → Ends
  | c :: t, e :: es => on :: one kind (e && kind c) t es
  | _, _ => [on]

/-- The matches that go on over any number of characters of a kind. -/
def many (kind : Char → Bool) (on : Bool) : Text → Ends → Ends
  | c :: t, e :: es => (on || e) :: many kind ((on || e) && kind c) t es
  | _, es => [on || es.contains true]

def either (es fs : Ends) : Ends := List.zipWith (· || ·) es fs

/-- The matches that end with the text. A final line feed does not keep the end away. -/
def atEnd (es : Ends) : Text → Ends
  | [] => es
  | ['\n'] => es
  | _ :: t => false :: atEnd es.tail t

end Ends

namespace Atom

def isReversed : Char × Char → Bool := fun (low, high) => high.toNat < low.toNat

def isIn (c : Char) : Char × Char → Bool := fun (low, high) =>
  low.toNat ≤ c.toNat && c.toNat ≤ high.toNat

def ends (a : Atom) (t : Text) (es : Ends) : Ends :=
  let slash := Ends.one (· = '/') false t
  let name := fun c => c ≠ '/'
  let line := fun c => c ≠ '\n'
  match a with
  | literal c => Ends.one (· = c) false t es
  | anyInName => Ends.one name false t es
  | runInName => Ends.many name false t es
  | oneOf negated ranges => Ends.one (fun c => ranges.any (isIn c) != negated) false t es
  | leadingDirs => es.either (slash (Ends.many line false t (Ends.one line false t es)))
  | innerDirs => es.either (Ends.many line false t (Ends.one line false t (slash es)))
  | nameEnd => (slash es).either (es.atEnd t)

def matchStart (as : List Atom) (t : Text) : Bool :=
  (as.foldl (fun es a => a.ends t es) (Ends.start t)).contains true

end Atom

namespace Glob

inductive Flaw
  /-- A backslash at the end escapes nothing. -/
  | danglingEscape
  | openBracket
deriving DecidableEq, Repr

/-- The content of a bracket, whether it is negated, and the text after it. The first character of
the content may be a closing bracket. -/
def bracket? (t : Text) : Option (Bool × Text × Text) :=
  let negated := t.head? = some '!' || t.head? = some '^'
  let t := if negated then t.drop 1 else t
  let first := if t.head? = some ']' then 1 else 0
  let content := t.take first ++ (t.drop first).takeWhile (· ≠ ']')
  match (t.drop first).dropWhile (· ≠ ']') with
  | _ :: rest => some (negated, content, rest)
  | [] => none

/-- The ranges that a bracket's content states. A hyphen at either end stands for itself. -/
def ranges : Text → List (Char × Char)
  | [] => []
  | [a] => [(a, a)]
  | a :: '-' :: b :: t => (a, b) :: ranges t
  | a :: t => (a, a) :: ranges t

theorem length_of_bracket? {t content rest : Text} {negated : Bool}
    (h : bracket? t = some (negated, content, rest)) : rest.length < t.length := by
  simp only [bracket?] at h
  split at h
  · next c r hr =>
    cases h
    have h₁ := congrArg List.length hr
    simp only [List.length_cons] at h₁
    have h₂ := (List.dropWhile_sublist (fun x : Char => decide (x ≠ ']'))
      (l := (if t.head? = some '!' || t.head? = some '^' then t.drop 1 else t).drop
        (if (if t.head? = some '!' || t.head? = some '^' then t.drop 1 else t).head? = some ']'
          then 1 else 0))).length_le
    rw [h₁] at h₂
    refine Nat.lt_of_lt_of_le h₂ (Nat.le_trans (List.drop_sublist _ _).length_le ?_)
    split
    · exact (List.drop_sublist _ _).length_le
    · exact Nat.le_refl _
  · cases h

def atoms (t : Text) : Except Flaw (List Atom) :=
  match t with
  | [] => .ok []
  | c :: t =>
    if c = '\\' then
      match t with
      | [] => .error .danglingEscape
      | d :: t => (atoms t).map (.literal d :: ·)
    else if c = '*' then (atoms t).map (.runInName :: ·)
    else if c = '?' then (atoms t).map (.anyInName :: ·)
    else if c = '[' then
      match _h : bracket? t with
      | none => .error .openBracket
      | some (negated, content, rest) => (atoms rest).map (.oneOf negated (ranges content) :: ·)
    else (atoms t).map (.literal c :: ·)
termination_by t.length
decreasing_by
  · simp only [List.length_cons]; omega
  · exact Nat.lt_succ_self _
  · exact Nat.lt_succ_self _
  · exact Nat.lt_succ_of_lt (length_of_bracket? _h)
  · exact Nat.lt_succ_self _

end Glob

end Emend
