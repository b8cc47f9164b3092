import Emend.Proofs.Patch.Terminator
import Emend.Proofs.Text.Blank

namespace Emend

namespace Text

variable {c : Char}

theorem withoutReturns_concat_return (l : Line) : withoutReturns (l ++ ['\r']) = withoutReturns l :=
  List.rdropWhile_concat_pos (fun c => decide (c = '\r')) l '\r' (by decide)

theorem withoutReturns_concat (l : Line) (hc : c ≠ '\r') : withoutReturns (l ++ [c]) = l ++ [c] :=
  List.rdropWhile_concat_neg (fun c => decide (c = '\r')) l c (by simpa using hc)

theorem withoutReturns_cons (c : Char) (l : Line) :
    withoutReturns (c :: withoutReturns l) = withoutReturns (c :: l) := by
  induction l using List.reverseRecOn with
  | nil => rfl
  | append_singleton l d ih =>
    by_cases hd : d = '\r'
    · subst hd
      rw [withoutReturns_concat_return, ih]
      exact (withoutReturns_concat_return (c :: l)).symm
    · rw [withoutReturns_concat l hd]

theorem map_withoutReturns_modifyHead (c : Char) (ls : List Line) :
    (ls.modifyHead (c :: ·)).map withoutReturns =
      (ls.map withoutReturns).modifyHead fun l => withoutReturns (c :: l) := by
  cases ls with
  | nil => rfl
  | cons l ls => simp [withoutReturns_cons]

end Text

namespace Terminator

open Text

variable {c : Char}

theorem lines_pair (t : Text) : lines ('\r' :: '\n' :: t) = ['\r'] :: lines t := by
  rw [lines_cons, if_neg (by decide), lines_cons, if_pos rfl, List.modifyHead_cons]

theorem lines_feed (t : Text) : lines ('\n' :: t) = [] :: lines t := by
  rw [lines_cons, if_pos rfl]

theorem map_withoutReturns_lines_fromLf (t : Text) :
    (crlf.fromLf t).lines.map withoutReturns = t.lines.map withoutReturns := by
  induction t with
  | nil => rfl
  | cons c t ih =>
    by_cases hc : c = '\n'
    · subst hc
      show (lines ('\r' :: '\n' :: crlf.fromLf t)).map withoutReturns = _
      rw [lines_pair, lines_feed, List.map_cons, List.map_cons, ih]
      rfl
    · rw [fromLf_cons, if_neg hc, List.singleton_append, lines_cons, if_neg hc, lines_cons, if_neg hc,
        map_withoutReturns_modifyHead, map_withoutReturns_modifyHead, ih]

theorem fromLf_concat (t : Text) (hc : c ≠ '\n') : crlf.fromLf (t ++ [c]) = crlf.fromLf t ++ [c] := by
  rw [fromLf_append, fromLf_cons, if_neg hc, fromLf_nil, List.append_nil]

theorem trimLeft_fromLf (t : Text) : trimLeft (crlf.fromLf t) = crlf.fromLf (trimLeft t) := by
  induction t with
  | nil => rfl
  | cons c t ih =>
    by_cases hn : c = '\n'
    · subst hn
      exact ih
    · rw [fromLf_cons, if_neg hn, List.singleton_append]
      by_cases hc : isBlank c
      · rw [trimLeft, trimLeft, List.dropWhile_cons_of_pos hc, List.dropWhile_cons_of_pos hc]
        exact ih
      · rw [trimLeft, trimLeft, List.dropWhile_cons_of_neg hc, List.dropWhile_cons_of_neg hc, fromLf_cons,
          if_neg hn, List.singleton_append]

theorem trimRight_fromLf (t : Text) : trimRight (crlf.fromLf t) = crlf.fromLf (trimRight t) := by
  induction t using List.reverseRecOn with
  | nil => rfl
  | append_singleton t c ih =>
    by_cases hn : c = '\n'
    · subst hn
      have hpair : crlf.fromLf (t ++ ['\n']) = crlf.fromLf t ++ ['\r'] ++ ['\n'] := by
        rw [fromLf_append, List.append_assoc]
        rfl
      rw [hpair, trimRight_concat_of_blank _ (by decide), trimRight_concat_of_blank _ (by decide),
        trimRight_concat_of_blank _ (by decide), ih]
    · rw [fromLf_concat t hn]
      by_cases hc : isBlank c
      · rw [trimRight_concat_of_blank _ hc, trimRight_concat_of_blank _ hc, ih]
      · rw [Bool.not_eq_true] at hc
        rw [trimRight_concat _ hc, trimRight_concat _ hc, fromLf_concat t hn]

theorem trim_fromLf (t : Text) : (crlf.fromLf t).trim = crlf.fromLf t.trim := by
  rw [trim, trim, trimLeft_fromLf, trimRight_fromLf]

end Terminator

theorem patchLines_fromLf (t : Text) : patchLines (Terminator.crlf.fromLf t) = patchLines t := by
  rw [patchLines, patchLines, Terminator.map_withoutReturns_lines_fromLf]

/-- A patch body comes to the same on any document, and a patch to the same operations or the same error,
with pairs in the place of all its line feeds. It may hold other carriage returns, before line feeds too. -/
theorem Envelope.read_pairs (t : Text) :
    (∀ kind doc, Patched.ofKind kind doc (Terminator.crlf.fromLf t) = Patched.ofKind kind doc t) ∧
      read (Terminator.crlf.fromLf t) = read t := by
  constructor
  · intro kind doc
    cases kind with
    | update => rw [Patched.ofKind, Patched.ofKind, Patched.update, Patched.update, patchLines_fromLf]
    | create => rw [Patched.ofKind, Patched.ofKind, Patched.create, Patched.create, patchLines_fromLf]
  · rw [read, read, Terminator.trim_fromLf, patchLines_fromLf]

end Emend
