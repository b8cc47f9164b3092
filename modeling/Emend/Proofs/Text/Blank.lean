import Mathlib.Data.List.DropRight
import Mathlib.Data.List.TakeWhile
import Emend.Text.Blank

namespace Emend

namespace Text

variable {t : Text} {c : Char}

theorem trimLeft_of_head? (h : ∀ c ∈ t.head?, isBlank c = false) : t.trimLeft = t := by
  cases t with
  | nil => rfl
  | cons c t => exact List.dropWhile_cons_of_neg (by simp [h c rfl])

theorem trimRight_of_getLast? (h : ∀ c ∈ t.getLast?, isBlank c = false) : t.trimRight = t := by
  have hleft : trimLeft t.reverse = t.reverse :=
    trimLeft_of_head? fun c hc => h c (List.head?_reverse.symm.trans hc)
  exact (congrArg List.reverse hleft).trans t.reverse_reverse

theorem trim_eq_self (hfirst : ∀ c ∈ t.head?, isBlank c = false)
    (hlast : ∀ c ∈ t.getLast?, isBlank c = false) : t.trim = t := by
  rw [trim, trimLeft_of_head? hfirst, trimRight_of_getLast? hlast]

theorem trimRight_concat_of_blank (t : Text) (hc : isBlank c = true) :
    trimRight (t ++ [c]) = trimRight t :=
  List.rdropWhile_concat_pos isBlank t c hc

theorem trimRight_concat (t : Text) (hc : isBlank c = false) : trimRight (t ++ [c]) = t ++ [c] :=
  List.rdropWhile_concat_neg isBlank t c (by simp [hc])

theorem trim_concat_of_blank (t : Text) (hc : isBlank c = true) : trim (t ++ [c]) = trim t := by
  have hblank : trimLeft [c] = [] := List.dropWhile_cons_of_pos hc
  rw [trim, trim, trimLeft, List.dropWhile_append]
  split
  · next hnil => rw [trimLeft, List.isEmpty_iff.1 hnil, ← trimLeft, hblank]
  · exact trimRight_concat_of_blank t.trimLeft hc

theorem trim_trimRight (t : Text) : trim (trimRight t) = trim t := by
  induction t using List.reverseRecOn with
  | nil => rfl
  | append_singleton t c ih =>
    by_cases hc : isBlank c
    · rw [trimRight_concat_of_blank t hc, ih, trim_concat_of_blank t hc]
    · rw [Bool.not_eq_true] at hc
      rw [trimRight_concat t hc]

theorem trimRight_isPrefix (t : Text) : t.trimRight <+: t := by
  rw [trimRight, ← List.reverse_suffix, List.reverse_reverse]
  exact List.dropWhile_suffix isBlank

theorem mem_of_mem_trim (h : c ∈ t.trim) : c ∈ t :=
  (List.dropWhile_suffix isBlank).mem ((trimRight_isPrefix t.trimLeft).mem h)

theorem getLast?_trim (t : Text) : ∀ c ∈ t.trim.getLast?, isBlank c = false := by
  intro c hc
  rw [trim, trimRight, List.getLast?_reverse] at hc
  have hnot := List.head?_dropWhile_not isBlank t.trimLeft.reverse
  rw [Option.mem_def.1 hc] at hnot
  exact hnot

theorem trim_cons_ne_nil (hc : isBlank c = false) (t : Text) : trim (c :: t) ≠ [] := by
  have hleft : trimLeft (c :: t) = c :: t := List.dropWhile_cons_of_neg (by simp [hc])
  rw [trim, hleft, trimRight, Ne, List.reverse_eq_nil_iff, List.dropWhile_eq_nil_iff]
  intro hall
  have hblank := hall c (List.mem_reverse.2 List.mem_cons_self)
  rw [hc] at hblank
  cases hblank

theorem trim_space_cons (t : Text) : trim (' ' :: t) = t.trim :=
  congrArg trimRight (List.dropWhile_cons_of_pos (by decide))

end Text

end Emend
