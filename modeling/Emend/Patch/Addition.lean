import Emend.Patch.Error
import Emend.Patch.Marker

namespace Emend

namespace Addition

def read : List Line → Except PatchError (List Line)
  | [] => .ok []
  | l :: rest =>
    if Text.startsWithAny Marker.fileEnds l then .ok []
    else match Text.after? ['+'] l with
      | none => .error (.invalidAddition l)
      | some content => (read rest).map (content :: ·)

def text (ls : List Line) : Except PatchError Text := (read ls).map Text.ofLines

end Addition

end Emend
