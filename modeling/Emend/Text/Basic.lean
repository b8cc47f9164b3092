namespace Emend

/-- A text is a list of Unicode scalar values. A code point that stands for half of a pair is none, so no
text fails to be encoded when it is written. -/
abbrev Text := List Char

/-- A line is a text that stands between two line feeds. -/
abbrev Line := Text

namespace Text

def lines (t : Text) : List Line := t.splitOn '\n'

def ofLines (ls : List Line) : Text := ['\n'].intercalate ls

@[simp] theorem ofLines_lines (t : Text) : ofLines (lines t) = t :=
  List.intercalate_splitOn _

theorem not_mem_of_mem_splitOn {t piece : Text} {c : Char} (h : piece ∈ t.splitOn c) : c ∉ piece := by
  induction t generalizing piece with
  | nil =>
    obtain rfl := List.mem_singleton.1 h
    exact List.not_mem_nil
  | cons d t ih =>
    rw [List.splitOn_cons_eq_if_modifyHead] at h
    split at h
    · obtain rfl | h := List.mem_cons.1 h
      · exact List.not_mem_nil
      · exact ih h
    · next hd =>
      obtain ⟨head, rest, hsplit⟩ := List.exists_cons_of_ne_nil (List.splitOn_ne_nil c t)
      rw [hsplit, List.modifyHead_cons] at h
      obtain rfl | h := List.mem_cons.1 h
      · have hhead : c ∉ head := ih (hsplit ▸ List.mem_cons_self)
        have hne : c ≠ d := by
          rintro rfl
          simp at hd
        exact List.not_mem_cons_of_ne_of_not_mem hne hhead
      · exact ih (hsplit ▸ List.mem_cons_of_mem _ h)

theorem lines_ofLines {ls : List Line} (h : ∀ l ∈ ls, '\n' ∉ l) (hne : ls ≠ []) :
    lines (ofLines ls) = ls :=
  List.splitOn_intercalate _ h hne

/-- A terminator ends a line and starts none: the empty piece after the last one is left out. -/
def withoutFinalEmpty (ls : List Line) : List Line :=
  if ls.getLast? = some [] then ls.dropLast else ls

/-- What follows `lead` in a text that starts with it. -/
def after? (lead t : Text) : Option Text :=
  if lead.isPrefixOf t then some (t.drop lead.length) else none

@[simp] theorem after?_append (lead t : Text) : after? lead (lead ++ t) = some t := by
  simp [after?, List.isPrefixOf_iff_prefix]

theorem after?_eq_some {lead t r : Text} : after? lead t = some r ↔ t = lead ++ r := by
  constructor
  · intro h
    simp only [after?, Option.ite_none_right_eq_some, Option.some.injEq] at h
    obtain ⟨hp, hr⟩ := h
    obtain ⟨s, rfl⟩ := List.isPrefixOf_iff_prefix.1 hp
    simp_all
  · rintro rfl
    exact after?_append lead r

def orEmpty (t : Option Text) : Text := t.getD []

def ofNat (n : Nat) : Text := (toString n).toList

def ofInt (i : Int) : Text := (toString i).toList

def ofBool (b : Bool) : Text := if b then "True".toList else "False".toList

end Text

end Emend
