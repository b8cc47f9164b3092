import Emend.Text.Basic

namespace Emend

abbrev Name := Text

/-- The names from the root on, none of which stands for the directory itself or the one above. -/
abbrev Path := List Name

namespace Path

def pieces (t : Text) : List Name := t.splitOn '/'

/-- The path one piece further on, whatever the tree holds. At the root, two dots stay there. -/
def step (p : Path) (piece : Name) : Path :=
  if piece = [] ∨ piece = ['.'] then p
  else if piece = ['.', '.'] then p.dropLast
  else p ++ [piece]

def walk (p : Path) (pieces : List Name) : Path := pieces.foldl step p

def toText (p : Path) : Text := '/' :: ['/'].intercalate p

/-- A null character would end the path text early, so no call of the system takes such names. -/
def hasNull (names : List Name) : Bool := names.any (·.contains '\x00')

def parent (p : Path) : Path := p.dropLast

def Within (base p : Path) : Prop := base <+: p

instance (base p : Path) : Decidable (Within base p) := inferInstanceAs (Decidable (base <+: p))

/-- The path that a text names from `base` on, a slash at its start not counted, if it stays within
`base`. -/
def resolve? (base : Path) (t : Text) : Option Path :=
  let p := walk base (pieces t)
  if Within base p then some p else none

/-- The path text from `base` on, which is one dot for `base` itself. -/
def relative (base p : Path) : Text :=
  if p = base then ['.'] else ['/'].intercalate (p.drop base.length)

@[simp] theorem walk_nil (p : Path) : walk p [] = p := rfl

@[simp] theorem walk_cons (p : Path) (n : Name) (ns : List Name) :
    walk p (n :: ns) = walk (step p n) ns := rfl

theorem walk_append (p : Path) (ms ns : List Name) : walk p (ms ++ ns) = walk (walk p ms) ns :=
  List.foldl_append

theorem resolve?_eq_some {base p : Path} {t : Text} :
    resolve? base t = some p ↔ Within base p ∧ walk base (pieces t) = p := by
  simp only [resolve?, Option.ite_none_right_eq_some, Option.some.injEq]
  constructor
  · rintro ⟨h, rfl⟩
    exact ⟨h, rfl⟩
  · rintro ⟨h, rfl⟩
    exact ⟨h, rfl⟩

end Path

/-- A path as its absolute text gives it. -/
structure RealPath where
  path : Path
  /-- The text starts with two slashes and no more. -/
  doubled : Bool := false
deriving DecidableEq, Repr

namespace RealPath

def join (p : RealPath) (pieces : List Name) : RealPath :=
  match pieces with
  | [] :: [] :: n :: rest => ⟨Path.walk [] pieces, n ≠ [] ∨ rest = []⟩
  | [] :: _ :: _ => ⟨Path.walk [] pieces, false⟩
  | _ => { p with path := Path.walk p.path pieces }

def ofText (t : Text) : RealPath := join ⟨[], false⟩ (Path.pieces t)

def toText (p : RealPath) : Text := if p.doubled then '/' :: p.path.toText else p.path.toText

/-- The path is `base` or below it. What paths have in common starts with one slash, so nothing is
within a path whose text starts with two. -/
def Within (base : RealPath) (p : Path) : Prop := base.doubled = false ∧ Path.Within base.path p

instance (base : RealPath) (p : Path) : Decidable (base.Within p) :=
  inferInstanceAs (Decidable (_ ∧ _))

def resolve? (base : RealPath) (t : Text) : Option Path :=
  if base.doubled then none else Path.resolve? base.path t

end RealPath

def Path.outside (t : Text) : Text :=
  "Path traversal attempt detected for '".toList ++ t ++ ['\x27']

end Emend
