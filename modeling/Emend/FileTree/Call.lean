import Emend.FileTree.Lookup
import Emend.Text.Quoted

namespace Emend

/-- Why a call gave nothing, with the paths it was made on. -/
inductive CallError
  | on (code : Errno) (names : List Name)
  | between (code : Errno) (source target : List Name)
  /-- A file cannot be copied onto itself. -/
  | sameFile (source target : List Name)
  /-- A copy cannot be made at a path that ends in a slash and names no directory. -/
  | noDirectory (names : List Name)
  /-- All names for a temporary file are taken. -/
  | noTempName
  /-- The call was not made at all. -/
  | aborted (a : Abort)
deriving DecidableEq, Repr

namespace CallError

def quotedPath (names : List Name) : Text := Text.quoted (Path.toText names)

def numbered (code : Errno) : Text := "[Errno ".toList ++ Text.ofNat code.number ++ "] ".toList

def describe (code : Errno) : Text := numbered code ++ code.text ++ ": ".toList

def message : CallError → Text
  | on code p => describe code ++ quotedPath p
  | between code p q => describe code ++ quotedPath p ++ " -> ".toList ++ quotedPath q
  | sameFile p q => quotedPath p ++ " and ".toList ++ quotedPath q ++ " are the same file".toList
  | noDirectory p => "Directory does not exist: ".toList ++ Path.toText p
  | noTempName => numbered .fileExists ++ "No usable temporary file name found".toList
  | aborted a => a.message

end CallError

abbrev Call := EStateM CallError FileTree

namespace FileTree

def callSpot (t : FileTree) (last : LastName) (names : List Name) : Except CallError Spot :=
  if Path.hasNull names then .error (.aborted .nullCharacter)
  else
    match t.spot last names with
    | .ok spot => .ok spot
    | .error e => .error (.on e names)

def readFile (names : List Name) : Call ByteArray := fun t =>
  if Path.hasNull names then .error (.aborted .nullCharacter) t
  else
    match t.find names with
    | .ok (.file b) => .ok b t
    | .ok _ => .error (.on .isDir names) t
    | .error e => .error (.on e names) t

/-- Makes or overwrites the file that the names lead to, through a link at their end too. -/
def writeFile (names : List Name) (bytes : ByteArray) : Call Unit := fun t =>
  match t.callSpot .newFile names with
  | .error e => .error e t
  | .ok spot =>
    if t.get? spot.path = some .dir then .error (.on .isDir names) t
    else .ok () (t.put spot.path (.file bytes))

def makeDir (names : List Name) : Call Unit := fun t =>
  match t.callSpot .entry names with
  | .error e => .error e t
  | .ok spot =>
    if (t.get? spot.path).isSome then .error (.on .fileExists names) t
    else .ok () (t.put spot.path .dir)

def ensureDir (names : List Name) : Call Unit := fun t =>
  match makeDir names t with
  | .ok u t => .ok u t
  | .error e t => if t.hasDir names then .ok () t else .error e t

/-- Makes a directory with those above it, unless there is one. That something else stands in the
place of one above is left for the making of those below to find. -/
def makeLevels (p : Path) : Call Unit := fun t =>
  if _h : p = [] then .ok () t
  else if t.has p.parent then ensureDir p t
  else
    match makeLevels p.parent t with
    | .ok _ t => ensureDir p t
    | .error (.on .fileExists _) t => ensureDir p t
    | .error e t => .error e t
termination_by p.length
decreasing_by
  have := List.length_pos_iff.2 _h
  simp only [Path.parent, List.length_dropLast]
  omega

/-- The directory counts with those above it for which nothing is there to hold them. -/
def levels (t : FileTree) (p : Path) : Nat :=
  if _h : p = [] then 0 else if t.has p.parent then 1 else levels t p.parent + 1
termination_by p.length
decreasing_by
  have := List.length_pos_iff.2 _h
  simp only [Path.parent, List.length_dropLast]
  omega

/-- Makes a directory with those above it, unless there is one. Nothing is made if they are too many. -/
def makeDirs (p : Path) : Call Unit := fun t =>
  if maxDepth < t.levels p then .error (.aborted .tooDeep) t else makeLevels p t

def removeFile (names : List Name) : Call Unit := fun t =>
  match t.callSpot .entry names with
  | .error e => .error e t
  | .ok spot =>
    match t.get? spot.path with
    | none => .error (.on .noEntry names) t
    | some .dir => .error (.on .isDir names) t
    | some _ => .ok () (t.erase spot.path)

/-- Moves a file or a link into the place of another or to a free one. Directories stay. -/
def rename (source target : List Name) : Call Unit := fun t =>
  if Path.hasNull source || Path.hasNull target then .error (.aborted .nullCharacter) t
  else
    match t.spot .entry source, t.spot .entry target with
    | .error e, _ => .error (.between e source target) t
    | _, .error e => .error (.between e source target) t
    | .ok s, .ok d =>
      match t.get? s.path, t.get? d.path with
      | none, _ => .error (.between .noEntry source target) t
      | some .dir, _ => .error (.between .notDir source target) t
      | some _, some .dir => .error (.between .isDir source target) t
      | some e, _ => if s.path = d.path then .ok () t else .ok () ((t.erase s.path).put d.path e)

/-- A copy to a directory gets the file's name there. -/
def copyTarget (t : FileTree) (source target : List Name) : List Name :=
  if t.hasDir target then
    (if target.getLast? = some [] then target.dropLast else target) ++ [source.getLastD []]
  else target

def sameEntry (t : FileTree) (p q : List Name) : Bool :=
  t.has p && t.has q &&
    match t.spot .content p, t.spot .content q with
    | .ok s, .ok d => s.path = d.path
    | _, _ => false

def copyFile (source target : List Name) : Call Unit := fun t =>
  let target := t.copyTarget source target
  if Path.hasNull source || Path.hasNull target then .error (.aborted .nullCharacter) t
  else if t.sameEntry source target then .error (.sameFile source target) t
  else
    match readFile source t with
    | .error e t => .error e t
    | .ok bytes t =>
      match writeFile target bytes t with
      | .error (.on .isDir p) t =>
        if t.has target then .error (.on .isDir p) t else .error (.noDirectory target) t
      | r => r

def makeLink (names : List Name) (target : Text) : Call Unit := fun t =>
  match t.callSpot .entry names with
  | .error e => .error e t
  | .ok spot =>
    if (t.get? spot.path).isSome then .error (.on .fileExists names) t
    else .ok () (t.put spot.path (.link target))

inductive TempKind
  /-- Content on its way to its place. -/
  | staged
  /-- A file that was taken from its place. -/
  | setAside
deriving DecidableEq, Repr

def TempKind.ending : TempKind → Text
  | staged => ".tmp".toList
  | setAside => ".del".toList

def tempName (kind : TempKind) (n : Nat) : Name :=
  ".v4a-".toList ++ Text.hexDigits 8 n ++ kind.ending

/-- How many names there are for temporary files of a kind, all of them equally long. -/
def tempNames : Nat := 0x100000000

/-- A number whose temporary file is not in the directory and has no reserved name. If the directory
and the reserved names are `n` together, one of any `n + 1` numbers will do, unless there are fewer. -/
def freeNumber (t : FileTree) (reserved : List Name) (dir : Path) (kind : TempKind) : Option Nat :=
  let n := (t.names dir).length + reserved.length
  ((List.range' n (n + 1)).map (· % tempNames)).find? fun i =>
    !reserved.contains (tempName kind i) && (t.get? (dir ++ [tempName kind i])).isNone

/-- Makes a new temporary file in a directory, and gives its path. All names for one are equally long,
so one of them stands for all where it is refused. -/
def makeTemp (reserved : List Name) (dir : Path) (kind : TempKind) (bytes : ByteArray) : Call Path :=
    fun t =>
  let refused (e : Errno) := EStateM.Result.error (.on e (dir ++ [tempName kind 0])) t
  if Path.hasNull dir then .error (.aborted .nullCharacter) t
  else if tooLong (dir ++ [tempName kind 0]) then refused .nameTooLong
  else
    match t.locate .content maxLinks .root dir with
    | .error e => refused e
    | .ok spot =>
      match t.get? spot.path with
      | none => refused .noEntry
      | some .dir =>
        match t.freeNumber reserved spot.path kind with
        | none => .error .noTempName t
        | some n =>
          .ok (dir ++ [tempName kind n]) (t.put (spot.path ++ [tempName kind n]) (.file bytes))
      | some _ => refused .notDir

/-- The names on the targets of all links. -/
def linkNames (t : FileTree) : List Name :=
  t.toList.flatMap fun
    | (_, .link target) => Path.pieces target
    | _ => []

end FileTree

end Emend
