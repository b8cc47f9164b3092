import Emend.Ignore.Glob
import Emend.Text.Blank

namespace Emend

inductive PathTest
  /-- Some character of the path ends no line. -/
  | anything
  /-- The path is below some directory. -/
  | nested
  | shape (atoms : List Atom)
deriving DecidableEq, Repr

def PathTest.holds (p : Text) : PathTest → Bool
  | anything => p.any (· ≠ '\n')
  | nested => '/' ∈ p
  | shape atoms => Atom.matchStart atoms p

/-- A rule excludes the paths it matches or, negated, takes them back in. -/
structure Rule where
  negated : Bool
  test : PathTest
deriving DecidableEq, Repr

namespace Rule

inductive Fault
  | malformed
  /-- A range in a bracket ends before it starts. -/
  | reversedRange
deriving DecidableEq, Repr

def anyDirs : Text := ['*', '*']

def collapse : List Text → List Text
  | [] => []
  | [s] => [s]
  | s :: s' :: rest =>
    if s = anyDirs ∧ s' = anyDirs then collapse (s' :: rest) else s :: collapse (s' :: rest)

/-- The names of a pattern. A pattern without a slash before its end matches at any depth; after a
slash at its end it matches what is below. -/
def segments (pattern : Text) : List Text :=
  let names :=
    match pattern.splitOn '/' with
    | [] :: rest => rest
    | [s] => if s = anyDirs then [s] else [anyDirs, s]
    | [s, []] => if s = anyDirs then [s, []] else [anyDirs, s, []]
    | names => names
  collapse (if names.getLast? = some [] then names.dropLast ++ [anyDirs] else names)

/-- The atoms of the names of a pattern. A slash is put before a name unless it comes first or after
directories that do. -/
def nameAtoms (first slash : Bool) : List Text → Except Glob.Flaw (List Atom)
  | [] => .ok []
  | s :: rest =>
    if s = anyDirs then
      if first then (nameAtoms false false rest).map (.leadingDirs :: ·)
      else if rest.isEmpty then .ok [.literal '/']
      else (nameAtoms false true rest).map (.innerDirs :: ·)
    else
      let before := if slash then [.literal '/'] else []
      let behind := if rest.isEmpty then [.nameEnd] else []
      match if s = ['*'] then .ok [.anyInName, .runInName] else Glob.atoms s with
      | .error e => .error e
      | .ok atoms => (nameAtoms false true rest).map (before ++ atoms ++ behind ++ ·)

def hasReversed : Atom → Bool
  | .oneOf _ ranges => ranges.any Atom.isReversed
  | _ => false

/-- The test of a pattern, or nothing if the pattern has no effect. -/
def test? (pattern : Text) : Except Fault (Option PathTest) :=
  let names := segments pattern
  let isDir := pattern.getLast? = some '/'
  if names = [] then .error .malformed
  else if names = [anyDirs] then .ok (some (if isDir then .nested else .anything))
  else if names = [anyDirs, ['*']] then .ok (some .anything)
  else if names = [anyDirs, ['*'], anyDirs] then .ok (some .nested)
  else
    match nameAtoms true false names with
    | .error .danglingEscape => .error .malformed
    | .error .openBracket => .ok none
    | .ok atoms => if atoms.any hasReversed then .error .reversedRange else .ok (some (.shape atoms))

/-- Blanks at the end of a line do not count, unless the last is escaped. -/
def stripLine (l : Line) : Text :=
  if ['\\', ' '].isSuffixOf l then l else l.trimRight

/-- The rule of a line. Empty lines, comments and a single slash are none. -/
def ofLine? (l : Line) : Except Fault (Option Rule) :=
  let pattern := stripLine l
  if pattern = [] ∨ pattern.head? = some '#' ∨ pattern = ['/'] then .ok none
  else
    let negated := pattern.head? = some '!'
    (test? (if negated then pattern.drop 1 else pattern)).map (·.map (⟨negated, ·⟩))

end Rule

abbrev Rules := List Rule

namespace Rules

def ofLines : List Line → Except Rule.Fault Rules
  | [] => .ok []
  | l :: ls =>
    match Rule.ofLine? l with
    | .error e => .error e
    | .ok rule? => (ofLines ls).map (rule?.toList ++ ·)

/-- A path without the slash, or the point and slash, at its start. -/
def relative (p : Text) : Text :=
  match p with
  | '/' :: p => p
  | '.' :: '/' :: p => p
  | p => p

/-- The last rule that matches a path decides whether it is excluded. -/
def excludes (rules : Rules) (p : Text) : Bool :=
  match rules.reverse.find? fun r => r.test.holds (relative p) with
  | some r => !r.negated
  | none => false

end Rules

end Emend
