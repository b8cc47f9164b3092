import Emend.FileTree.Place
import Emend.Text.Decoding

namespace Emend

inductive Errno
  | noEntry
  | fileExists
  | notDir
  | isDir
  | nameTooLong
  | loop
deriving DecidableEq, Repr

namespace Errno

def number : Errno → Nat
  | noEntry => 2
  | fileExists => 17
  | notDir => 20
  | isDir => 21
  | nameTooLong => 36
  | loop => 40

def text : Errno → Text
  | noEntry => "No such file or directory".toList
  | fileExists => "File exists".toList
  | notDir => "Not a directory".toList
  | isDir => "Is a directory".toList
  | nameTooLong => "File name too long".toList
  | loop => "Too many levels of symbolic links".toList

end Errno

/-- Why a request is given up before the system is asked. -/
inductive Abort
  /-- A path text with a null character in it cannot be handed to the system. -/
  | nullCharacter
  /-- Directories to be made, or links to be resolved, lie too deep within each other. -/
  | tooDeep
deriving DecidableEq, Repr

def Abort.message : Abort → Text
  | nullCharacter => "embedded null byte".toList
  | tooDeep => "maximum recursion depth exceeded".toList

/-- What the last of some names is asked for. -/
inductive LastName
  /-- The entry there, even if it is a link. -/
  | entry
  /-- What is there, links followed. -/
  | content
  /-- What is there or is to be made there, links followed. Nothing is made at a name before a slash. -/
  | newFile
deriving DecidableEq, Repr

/-- Where names lead: to the entry at `path`, or to the place for one in a directory. -/
structure Spot where
  path : Path
  /-- The names ended in a slash, so only a directory will do. -/
  slash : Bool
deriving DecidableEq, Repr

namespace FileTree

def maxNameBytes : Nat := 255

def maxPathBytes : Nat := 4095

/-- At most this many links are followed on the way to one entry. -/
def maxLinks : Nat := 40

/-- Directories are made, and links resolved, at most this deep within each other. The program sets no such
limit: the interpreter gives calls up that are nested too deeply, and how deeply depends on the frames of the
caller. The number is that of a request by itself. What is stated of requests speaks of `Abort.tooDeep`. -/
def maxDepth : Nat := 990

def linkStart {t : FileTree} (here : Place t) (target : Text) : Place t :=
  if target.head? = some '/' then .root else here

/-- Follows the names from the directory `here` on. A link on the way is left to `onLink`, with the
directory and the names that go on from there. A link at the very end is one on the way unless the
entry there is asked for. -/
def walkNames (t : FileTree) (last : LastName) (onLink : Place t → List Name → Except Errno Spot)
    (here : Place t) (names : List Name) : Except Errno Spot :=
  match names with
  | [] => .ok ⟨here.path, false⟩
  | n :: rest =>
    if n = [] ∨ n = ['.'] then walkNames t last onLink here rest
    else if n = ['.', '.'] then walkNames t last onLink here.parent rest
    else if last = .newFile ∧ rest ≠ [] ∧ rest.all (· = []) then .error .isDir
    else if maxNameBytes < n.encode.size then .error .nameTooLong
    else
      let there := here.child n
      match there.entry with
      | none => if rest.all (· = []) then .ok ⟨there.path, rest ≠ []⟩ else .error .noEntry
      | some (.file _) => if rest.all (· = []) then .ok ⟨there.path, rest ≠ []⟩ else .error .notDir
      | some .dir => walkNames t last onLink there rest
      | some (.link target) =>
        if rest = [] ∧ last = .entry then .ok ⟨there.path, false⟩
        else onLink (linkStart here target) (Path.pieces target ++ rest)

def locate (t : FileTree) (last : LastName) (links : Nat) : Place t → List Name → Except Errno Spot :=
  t.walkNames last
    (match links with
    | 0 => fun _ _ => .error .loop
    | links + 1 => locate t last links)

def tooLong (names : List Name) : Bool := maxPathBytes < (Path.toText names).encode.size

/-- Where the system finds the names to lead from the root on. -/
def spot (t : FileTree) (last : LastName) (names : List Name) : Except Errno Spot :=
  if tooLong names then .error .nameTooLong else t.locate last maxLinks .root names

/-- The entry that the names lead to, links followed. Names with a null character lead to none, as no
entry has such a name. -/
def find (t : FileTree) (names : List Name) : Except Errno Entry :=
  match t.spot .content names with
  | .error e => .error e
  | .ok spot =>
    match t.get? spot.path with
    | none => .error .noEntry
    | some .dir => .ok .dir
    | some e => if spot.slash then .error .notDir else .ok e

def has (t : FileTree) (names : List Name) : Bool := (t.find names).isOk

def hasFile (t : FileTree) (names : List Name) : Bool :=
  match t.find names with
  | .ok (.file _) => true
  | _ => false

def hasDir (t : FileTree) (names : List Name) : Bool :=
  match t.find names with
  | .ok .dir => true
  | _ => false

/-- Links with what they lead to. -/
abbrev Links := List (Path × Path)

inductive Resolved
  /-- The path without links, with the links that have been resolved so far. -/
  | done (p : Path) (known : Links)
  /-- A link leads back to itself; the names from it on are kept as they are. -/
  | stuck (p : RealPath)
  | aborted (a : Abort)
deriving DecidableEq, Repr

/-- Follows the names from the directory `here` on, and keeps those that lead to nothing. A link that
is not known yet is left to `onLink`, with the directory and the names that it goes on from. -/
def resolveNames (t : FileTree) (onLink : Links → Path → Place t → List Name → Resolved)
    (known : Links) (here : Place t) (names : List Name) : Resolved :=
  match names with
  | [] => .done here.path known
  | n :: rest =>
    if n = [] ∨ n = ['.'] then resolveNames t onLink known here rest
    else if n = ['.', '.'] then resolveNames t onLink known here.parent rest
    else if n.contains '\x00' then .aborted .nullCharacter
    else
      let there := here.child n
      match there.entry with
      | some (.link target) =>
        match known.lookup there.path with
        | some p => resolveNames t onLink known (.ofPath t p) rest
        | none =>
          match onLink known there.path (linkStart here target) (Path.pieces target) with
          | .done p known => resolveNames t onLink ((there.path, p) :: known) (.ofPath t p) rest
          | .stuck p => .stuck (p.join rest)
          | .aborted a => .aborted a
      | _ => resolveNames t onLink known there rest

/-- Resolves the links on the names from `here` on. Those in `active` are being resolved already; no
more than `depth` others are resolved within each other. -/
def resolveLinks (t : FileTree) (depth : Nat) (active : List Path) :
    Links → Place t → List Name → Resolved :=
  t.resolveNames
    (match depth with
    | 0 => fun _ link _ _ =>
      if active.contains link then .stuck ⟨link, false⟩ else .aborted .tooDeep
    | depth + 1 => fun known link here names =>
      if active.contains link then .stuck ⟨link, false⟩
      else resolveLinks t depth (link :: active) known here names)

/-- The path that the names lead to without links, as far as links can be resolved. -/
def realPath (t : FileTree) (names : List Name) : Except Abort RealPath :=
  match t.resolveLinks maxDepth [] [] .root names with
  | .done p _ => .ok ⟨p, false⟩
  | .stuck p => .ok p
  | .aborted a => .error a

end FileTree

end Emend
