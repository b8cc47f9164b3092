import Emend.Proofs.Patch.Fuzz

namespace Emend

/-- Some of the lines is the target, and none of those before the cursor is. -/
def Ahead (target : Line) (ls : List Line) (cursor : Nat) : Prop :=
  target ∈ ls ∧ target ∉ ls.take cursor

instance (target : Line) (ls : List Line) (cursor : Nat) : Decidable (Ahead target ls cursor) :=
  inferInstanceAs (Decidable (_ ∧ _))

theorem idxOf_of_firstUnpassed {normal : Line → Line} {target : Line} {doc : List Line}
    {cursor i : Nat} (h : firstUnpassed normal target doc cursor = some i) :
    (doc.map normal).idxOf target = i := by
  obtain ⟨-, ⟨l, hl, hn⟩, hfirst⟩ := firstUnpassed_eq_some.1 h
  obtain ⟨hlt, rfl⟩ := List.getElem?_eq_some_iff.1 hl
  refine (List.findIdx_eq (by simpa using hlt)).2 ⟨by simp [hn], fun j hj => ?_⟩
  have hne := hfirst j hj _ (List.getElem?_eq_getElem (Nat.lt_trans hj hlt))
  simpa using hne

theorem isSome_firstUnpassed {normal : Line → Line} {target : Line} {doc : List Line} {cursor : Nat} :
    (firstUnpassed normal target doc cursor).isSome = true ↔ Ahead target (doc.map normal) cursor := by
  have hany (ls : List Line) :
      (ls.any fun l => decide (normal l = target)) = true ↔ target ∈ ls.map normal := by
    simp only [List.any_eq_true, decide_eq_true_eq, List.mem_map]
  unfold firstUnpassed Ahead
  rw [← List.map_take]
  split
  · next hpassed => exact ⟨nofun, fun h => absurd ((hany _).1 hpassed) h.2⟩
  · next hpassed =>
    have hpassed := mt (hany _).2 hpassed
    -- What is not in front of the cursor is found from there on.
    rw [Option.isSome_map, List.findIdx?_isSome, hany, and_iff_left hpassed]
    conv_rhs =>
      rw [← List.take_append_drop cursor doc, List.map_append, List.mem_append, or_iff_right hpassed]

theorem firstUnpassed_eq (normal : Line → Line) (target : Line) (doc : List Line) (cursor : Nat) :
    firstUnpassed normal target doc cursor =
      if Ahead target (doc.map normal) cursor then some ((doc.map normal).idxOf target) else none := by
  cases hi : firstUnpassed normal target doc cursor with
  | none =>
    rw [if_neg fun h => ?_]
    have hsome := isSome_firstUnpassed.2 h
    rw [hi] at hsome
    cases hsome
  | some i =>
    rw [if_pos (isSome_firstUnpassed.1 (by rw [hi]; rfl)), idxOf_of_firstUnpassed hi]

namespace Jump

variable {anchor : Text} {doc : List Line} {cursor : Nat}

theorem seek_of_ahead (h : Ahead anchor doc cursor) :
    seek anchor doc cursor = ⟨anchor, cursor, doc.idxOf anchor + 1, 0⟩ := by
  rw [seek, firstUnpassed_eq, List.map_id, if_pos h]

theorem seek_of_trim_ahead (hexact : ¬Ahead anchor doc cursor)
    (h : Ahead anchor.trim (doc.map Text.trim) cursor) :
    seek anchor doc cursor = ⟨anchor, cursor, (doc.map Text.trim).idxOf anchor.trim + 1, 1⟩ := by
  rw [seek, firstUnpassed_eq, List.map_id, if_neg hexact, firstUnpassed_eq, if_pos h]

theorem seek_of_not_ahead (hexact : ¬Ahead anchor doc cursor)
    (h : ¬Ahead anchor.trim (doc.map Text.trim) cursor) :
    seek anchor doc cursor = ⟨anchor, cursor, cursor, 0⟩ := by
  rw [seek, firstUnpassed_eq, List.map_id, if_neg hexact, firstUnpassed_eq, if_neg h]

theorem not_ahead_of_passed (h : anchor ∈ doc.take cursor) :
    ¬Ahead anchor doc cursor ∧ ¬Ahead anchor.trim (doc.map Text.trim) cursor := by
  refine ⟨fun hahead => hahead.2 h, fun hahead => hahead.2 ?_⟩
  rw [← List.map_take]
  exact List.mem_map_of_mem h

/-- Whatever fuzz was charged before, a header leads from a place in the document to one that is not in front
of it. If the anchor is ahead, that is the place past its first line, at no charge; if not, and a line that
differs in surrounding blanks is ahead, the place past the first such line, at a charge of one; else the
header leads nowhere. An anchor that has been passed leads nowhere, whatever lines are like it. -/
theorem seek_leads (anchor : Text) {doc : List Line} {cursor : Nat} (h : cursor ≤ doc.length)
    (fuzz : Nat) :
    let j := seek anchor doc cursor
    let charged := fuzz + j.fuzz
    (cursor ≤ j.target ∧ j.target ≤ doc.length) ∧
      (Ahead anchor doc cursor → j.target = doc.idxOf anchor + 1 ∧ charged = fuzz) ∧
      (¬Ahead anchor doc cursor → Ahead anchor.trim (doc.map Text.trim) cursor →
        j.target = (doc.map Text.trim).idxOf anchor.trim + 1 ∧ charged = fuzz + 1) ∧
      (¬Ahead anchor doc cursor → ¬Ahead anchor.trim (doc.map Text.trim) cursor →
        j.target = cursor ∧ charged = fuzz) ∧
      (anchor ∈ doc.take cursor → j.target = cursor ∧ charged = fuzz) := by
  have hstay (hexact : ¬Ahead anchor doc cursor) (htrim : ¬Ahead anchor.trim (doc.map Text.trim) cursor) :
      (seek anchor doc cursor).target = cursor ∧ fuzz + (seek anchor doc cursor).fuzz = fuzz := by
    rw [seek_of_not_ahead hexact htrim]
    exact ⟨rfl, rfl⟩
  refine ⟨seek_bounds anchor h, fun hexact => ?_, fun hexact htrim => ?_, hstay, fun hpassed => ?_⟩
  · rw [seek_of_ahead hexact]
    exact ⟨rfl, rfl⟩
  · rw [seek_of_trim_ahead hexact htrim]
    exact ⟨rfl, rfl⟩
  · obtain ⟨hexact, htrim⟩ := not_ahead_of_passed hpassed
    exact hstay hexact htrim

theorem seek_leads_among_blanks :
    let doc := [" x".toList, "a ".toList, "x".toList, "x ".toList]
    (seek ['x'] doc 1).target = 3 ∧ (seek ['a'] doc 1).target = 2 ∧ 4 + (seek ['a'] doc 1).fuzz = 5 ∧
      (seek ['x'] doc 3).target = 3 ∧ 4 + (seek ['x'] doc 3).fuzz = 4 := by
  intro doc
  have hone : 1 ≤ doc.length := by decide
  have hthree : 3 ≤ doc.length := by decide
  obtain ⟨-, hexact, -⟩ := seek_leads ['x'] hone 4
  obtain ⟨-, -, htrim, -⟩ := seek_leads ['a'] hone 4
  obtain ⟨-, -, -, -, hpassed⟩ := seek_leads ['x'] hthree 4
  obtain ⟨hx, -⟩ := hexact (by decide)
  obtain ⟨ha, hcharged⟩ := htrim (by decide) (by decide)
  obtain ⟨hstay, hfree⟩ := hpassed (by decide)
  exact ⟨hx, ha, hcharged, hstay, hfree⟩

end Jump

end Emend
