import Emend.Text.Blank
import Emend.Patch.Error
import Emend.Patch.Marker

namespace Emend

inductive Operation
  | add (path : Text) (body : List Line)
  | update (path : Text) (body : List Line) (moveTo : Option Text)
  | delete (path : Text)
deriving DecidableEq, Repr

namespace Operation

def path : Operation → Text
  | add p _ => p
  | update p _ _ => p
  | delete p => p

/-- The lines between the header of the operation and the next. -/
def body : Operation → List Line
  | add _ b => b
  | update _ b _ => b
  | delete _ => []

def moveTo? : Operation → Option Text
  | update _ _ dest => dest
  | _ => none

def diff (op : Operation) : Text := Text.ofLines op.body

def action : Operation → Text
  | add _ _ => "create".toList
  | update _ _ _ => "update".toList
  | delete _ => "delete".toList

end Operation

inductive Header
  | add
  | update
  | delete
deriving DecidableEq, Repr

namespace Header

def lead : Header → Text
  | add => Marker.addFile
  | update => Marker.updateFile
  | delete => Marker.deleteFile

def read? (l : Line) : Option (Header × Text) :=
  [add, update, delete].findSome? fun h => (Text.after? h.lead l).map fun path => (h, path.trim)

def moveLead : Text := "*** Move to: ".toList

def isBody (l : Line) : Bool := !Text.startsWithAny Marker.fileEnds l

/-- Where an update moves its file to, if the next line says so, and the lines after that. A blank
destination is none. -/
def readMove : List Line → Option Text × List Line
  | [] => (none, [])
  | l :: rest =>
    match Text.after? moveLead l with
    | some dest => (if dest.trim = [] then none else some dest.trim, rest)
    | none => (none, l :: rest)

def operation (h : Header) (path : Text) (ls : List Line) : Operation × List Line :=
  match h with
  | delete => (.delete path, ls)
  | add => (.add path (ls.takeWhile isBody), ls.dropWhile isBody)
  | update =>
    let (dest, ls) := readMove ls
    (.update path (ls.takeWhile isBody) dest, ls.dropWhile isBody)

theorem length_readMove_le (ls : List Line) : (readMove ls).2.length ≤ ls.length := by
  unfold readMove
  split
  · exact Nat.le_refl _
  · split
    · exact Nat.le_succ _
    · exact Nat.le_refl _

theorem length_operation_le (h : Header) (path : Text) (ls : List Line) :
    (h.operation path ls).2.length ≤ ls.length := by
  cases h with
  | add => exact (List.dropWhile_sublist _).length_le
  | update => exact Nat.le_trans (List.dropWhile_sublist _).length_le (length_readMove_le ls)
  | delete => exact Nat.le_refl _

end Header

namespace Envelope

def beginPatch : Line := "*** Begin Patch".toList

/-- The operations up to the line that ends the patch, and the lines from there on. The paths in
`seen` are taken. -/
def readOperations (seen : List Text) (ls : List Line) :
    Except PatchError (List Operation × List Line) :=
  match ls with
  | [] => .ok ([], [])
  | l :: rest =>
    if l.trim = Marker.endPatch then .ok ([], l :: rest)
    else if l.trim = [] then readOperations seen rest
    else match Header.read? l with
      | none => .error (.unknownLine l)
      | some (h, path) =>
        if path = [] then .error (.missingPath l)
        else if path ∈ seen then .error (.duplicatePath path)
        else
          (readOperations (path :: seen) (h.operation path rest).2).map fun (ops, rest') =>
            ((h.operation path rest).1 :: ops, rest')
termination_by ls.length
decreasing_by
  · exact Nat.lt_succ_self _
  · exact Nat.lt_succ_of_le (h.length_operation_le path rest)

/-- The operations of a patch text, blanks around it not counted. Its first line begins the patch,
and only its last ends it. -/
def read (t : Text) : Except PatchError (List Operation) :=
  match patchLines t.trim with
  | [] => .error .missingBegin
  | l :: rest =>
    if l.trim = beginPatch then
      match readOperations [] rest with
      | .error e => .error e
      | .ok (ops, ends) => if ends.length = 1 then .ok ops else .error .missingEnd
    else .error .missingBegin

/-- The paths whose files have to exist. -/
def needed (ops : List Operation) : List Text :=
  ops.filterMap fun
    | .add _ _ => none
    | op => some op.path

/-- The paths whose files are made. -/
def added (ops : List Operation) : List Text :=
  ops.filterMap fun
    | .add path _ => some path
    | _ => none

end Envelope

end Emend
