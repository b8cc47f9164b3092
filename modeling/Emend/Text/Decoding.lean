import Emend.Text.Basic

namespace Emend

namespace Text

def encode (t : Text) : ByteArray := (String.ofList t).toUTF8

def decode? (b : ByteArray) : Option Text := (String.fromUTF8? b).map String.toList

theorem decode?_encode (t : Text) : decode? (encode t) = some t := by
  unfold decode? encode String.fromUTF8? String.toUTF8
  rw [dif_pos (String.ofList t).isValidUTF8]
  exact congrArg some String.toList_ofList

theorem encode_of_decode? {b : ByteArray} {t : Text} (h : decode? b = some t) : encode t = b := by
  simp only [decode?, String.fromUTF8?, Option.map_eq_some_iff] at h
  obtain ⟨s, hs, rfl⟩ := h
  split at hs
  · cases hs
    simp only [encode, String.ofList_toList]
    rfl
  · cases hs

/-- Decodes from the byte at `i` on, leaving out each byte that starts no character. -/
def decodeFrom (b : ByteArray) (i : Nat) : Text :=
  if i < b.size then
    match b.utf8DecodeChar? i with
    | some c => c :: decodeFrom b (i + c.utf8Size)
    | none => decodeFrom b (i + 1)
  else []
termination_by b.size - i
decreasing_by
  · have := c.utf8Size_pos
    omega
  · omega

def decodeLenient (b : ByteArray) : Text := decodeFrom b 0

def universal : Text → Text
  | [] => []
  | '\r' :: '\n' :: t => '\n' :: universal t
  | c :: t => (if c = '\r' then '\n' else c) :: universal t

/-- The characters at which a configuration file is broken into lines. -/
def lineBreaks : List Char :=
  ['\n', '\r', '\x0b', '\x0c', '\x1c', '\x1d', '\x1e', '\u0085', '\u2028', '\u2029']

/-- The lines of a configuration file: more characters break it than break a document. -/
def brokenLines (t : Text) : List Line :=
  withoutFinalEmpty (t.universal.splitOnP (lineBreaks.contains ·))

end Text

end Emend
