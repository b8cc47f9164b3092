import Emend.Patch.Error

namespace Emend

/-- From the line at `index` on, the deleted lines go and the inserted ones come. -/
structure Chunk where
  index : Int
  deleted : List Line
  inserted : List Line
deriving DecidableEq, Repr

namespace Chunk

def shift (n : Nat) (ch : Chunk) : Chunk := { ch with index := ch.index + n }

/-- The lines `rest` that a document of the length has from `cursor` on, with the chunks made. A chunk
takes as many lines out as it deletes, whatever they hold. -/
def spliceFrom (length cursor : Nat) (rest : List Line) : List Chunk → Except PatchError (List Line)
  | [] => .ok rest
  | ch :: chunks =>
    if length < ch.index then .error (.outOfRange ch.index length)
    else if ch.index < cursor then .error (.overlap ch.index cursor)
    else
      let kept := ch.index.toNat - cursor
      (spliceFrom length (ch.index.toNat + ch.deleted.length) (rest.drop (kept + ch.deleted.length))
        chunks).map fun tail => rest.take kept ++ ch.inserted ++ tail

def splice (doc : List Line) (chunks : List Chunk) : Except PatchError (List Line) :=
  spliceFrom doc.length 0 doc chunks

def apply (chunks : List Chunk) (t : Text) : Except PatchError Text :=
  (splice t.lines chunks).map Text.ofLines

@[simp] theorem splice_nil (doc : List Line) : splice doc [] = .ok doc := rfl

@[simp] theorem apply_nil (t : Text) : apply [] t = .ok t := by
  simp [apply, Except.map]

end Chunk

end Emend
