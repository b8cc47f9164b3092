import Emend.Text.Basic

namespace Emend

namespace Text

variable {c sep : Char} {ls ms : List Text}

theorem mem_intercalate (hc : c ≠ sep) : c ∈ [sep].intercalate ls ↔ ∃ l ∈ ls, c ∈ l := by
  induction ls with
  | nil => simp
  | cons l ls ih =>
    cases ls with
    | nil => simp
    | cons l' ls =>
      rw [List.intercalate_cons_cons, List.mem_append, List.mem_append, ih]
      simp [hc]

theorem intercalate_append (hls : ls ≠ []) (hms : ms ≠ []) :
    [sep].intercalate (ls ++ ms) = [sep].intercalate ls ++ sep :: [sep].intercalate ms := by
  induction ls with
  | nil => exact absurd rfl hls
  | cons l ls ih =>
    cases ls with
    | nil =>
      obtain ⟨m, ms, rfl⟩ := List.exists_cons_of_ne_nil hms
      simp [List.intercalate_cons_cons]
    | cons l' ls =>
      have hrest := ih (List.cons_ne_nil l' ls)
      rw [List.cons_append] at hrest ⊢
      rw [List.cons_append, List.intercalate_cons_cons, hrest, List.intercalate_cons_cons]
      simp only [List.append_assoc]

theorem ofLines_eq_nil {ls : List Line} : ofLines ls = [] ↔ ls = [] ∨ ls = [[]] := by
  match ls with
  | [] => simp [ofLines]
  | [l] => simp [ofLines]
  | l :: l' :: ls => simp [ofLines, List.intercalate_cons_cons]

theorem prefix_ofLines (l : Line) (ls : List Line) : l <+: ofLines (l :: ls) := by
  cases ls with
  | nil => simp [ofLines]
  | cons l' ls =>
    rw [ofLines, List.intercalate_cons_cons, List.append_assoc]
    exact List.prefix_append _ _

theorem suffix_ofLines (ls : List Line) (l : Line) : l <:+ ofLines (ls ++ [l]) := by
  by_cases hls : ls = []
  · simp [hls, ofLines]
  · rw [ofLines, intercalate_append hls (List.cons_ne_nil l []), List.intercalate_singleton]
    exact (List.suffix_cons '\n' l).trans (List.suffix_append _ _)

end Text

end Emend
