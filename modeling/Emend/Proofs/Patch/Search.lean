import Emend.Proofs.Patch.Fuzz
import Emend.Proofs.Text.Blank

namespace Emend

namespace Tier

variable {tier : Tier} {doc context : List Line} {start i : Nat}

theorem Matches.surrounding (h : tier.Matches doc context i) :
    surrounding.Matches doc context i := by
  refine ⟨h.1, ?_⟩
  have htrim := congrArg (List.map Text.trim) h.2
  rw [List.map_map, List.map_map] at htrim
  cases tier with
  | exact => exact htrim
  | trailing =>
    simp only [Function.comp_def, normal, Text.trim_trimRight] at htrim
    exact htrim
  | surrounding => exact h.2

theorem Matches.eq_end (h : tier.Matches doc context i) (hi : doc.length - context.length ≤ i) :
    i = doc.length - context.length := by
  have hlen := h.1
  omega

end Tier

namespace Placement

variable {tier : Tier} {doc context : List Line} {start i fuzz : Nat}

theorem locate_eq_none (hne : context ≠ []) : (locate doc context start).position = none ↔
    ∀ i, start ≤ i → ¬Tier.surrounding.Matches doc context i := by
  constructor
  · intro h i hi
    exact not_matches_of_locate h .surrounding hi
  · intro h
    cases hp : (locate doc context start).position with
    | none => rfl
    | some i =>
      have hloc : locate doc context start = ⟨some i, (locate doc context start).fuzz⟩ := by rw [← hp]
      obtain ⟨tier, -, -, hi, hm, -⟩ := (locate_eq_iff hne).1 hloc
      exact absurd hm.surrounding (h i hi)

/-- A context that agrees at the document's end is placed there, at the penalty of the closest tier. -/
theorem find_at_end (hm : tier.Matches doc context (doc.length - context.length))
    (hclosest : ∀ closer : Tier, closer.penalty < tier.penalty →
      ¬closer.Matches doc context (doc.length - context.length)) :
    find doc context start true = ⟨some (doc.length - context.length), tier.penalty⟩ := by
  have hlocate : locate doc context (doc.length - context.length) =
      ⟨some (doc.length - context.length), tier.penalty⟩ := by
    by_cases hne : context = []
    · subst hne
      -- An empty context agrees exactly, so that no other tier is the closest.
      have hzero : ¬Tier.exact.penalty < tier.penalty :=
        fun hlt => hclosest .exact hlt (Tier.matches_nil.2 (Nat.sub_le _ _))
      rw [locate_nil, Nat.eq_zero_of_not_pos hzero]
    · refine (locate_eq_iff hne).2 ⟨tier, rfl, ⟨⟨_, Nat.le_refl _, hm⟩, fun closer hlt i hi hc => ?_⟩,
        Nat.le_refl _, hm, fun j hj hlt => absurd hlt (Nat.not_lt.2 hj)⟩
      exact hclosest closer hlt (hc.eq_end hi ▸ hc)
  rw [find, if_pos rfl, hlocate]
  rfl

/-- A context that does not agree at the document's end is looked for as any other, and charged for it. -/
theorem find_elsewhere
    (h : ∀ tier : Tier, ¬tier.Matches doc context (doc.length - context.length)) :
    find doc context start true =
      ⟨(locate doc context start).position, (locate doc context start).fuzz + eofFuzz⟩ := by
  have hne : context ≠ [] := by
    rintro rfl
    exact h .exact (Tier.matches_nil.2 (Nat.sub_le _ _))
  have hnone : (locate doc context (doc.length - context.length)).position = none :=
    (locate_eq_none hne).2 fun i hi hm => h .surrounding (hm.eq_end hi ▸ hm)
  simp only [find, hnone]
  rfl

/-- A search finds a context at the first line from `start` on at which it agrees under the closest tier
that it agrees under at any of these lines. It fails only if the context agrees at none of them with the
blanks around the lines left aside. A context that should end the document is placed at its end if it agrees
there under some tier; if not, it is looked for from `start` on, and charged for it. No place reaches past
the end of the document. -/
theorem find_exactly (doc context : List Line) (start : Nat) (eof : Bool) (hs : start ≤ doc.length) :
    let last := doc.length - context.length
    (context ≠ [] →
      (∀ i fuzz, locate doc context start = ⟨some i, fuzz⟩ ↔
        ∃ tier : Tier, fuzz = tier.penalty ∧ tier.First doc context start ∧
          tier.FirstAt doc context start i) ∧
      ((locate doc context start).position = none ↔
        ∀ i, start ≤ i → ¬Tier.surrounding.Matches doc context i)) ∧
    (context = [] → locate doc context start = ⟨some start, 0⟩) ∧
    (∀ tier : Tier, tier.Matches doc context last →
      (∀ closer : Tier, closer.penalty < tier.penalty → ¬closer.Matches doc context last) →
        find doc context start true = ⟨some last, tier.penalty⟩) ∧
    ((∀ tier : Tier, ¬tier.Matches doc context last) →
      find doc context start true =
        ⟨(locate doc context start).position, (locate doc context start).fuzz + eofFuzz⟩) ∧
    find doc context start false = locate doc context start ∧
    ∀ i, (locate doc context start).position = some i ∨
      (find doc context start eof).position = some i → i + context.length ≤ doc.length := by
  intro last
  refine ⟨fun hne => ⟨fun i fuzz => locate_eq_iff hne, locate_eq_none hne⟩, ?_, ?_, ?_, rfl, ?_⟩
  · rintro rfl
    exact locate_nil doc start
  · intro tier hm hclosest
    exact find_at_end hm hclosest
  · intro hnone
    exact find_elsewhere hnone
  · rintro i (hp | hp)
    · have hloc : locate doc context start = ⟨some i, (locate doc context start).fuzz⟩ := by rw [← hp]
      obtain ⟨tier, -, -, -, hm, -⟩ := locate_first hloc hs
      exact hm.1
    · have hfind : find doc context start eof = ⟨some i, (find doc context start eof).fuzz⟩ := by
        rw [← hp]
      obtain ⟨tier, -, hm, -⟩ := find_eq_some hfind hs
      exact hm.1

theorem find_exactly_behind :
    let doc := ["a".toList, "b".toList, "a".toList, "b ".toList]
    let context := ["a".toList, "b".toList]
    3 ≤ doc.length ∧ (locate doc context 3).position = none ∧
      find doc context 3 true = ⟨some 2, 1⟩ ∧ locate doc context 1 = ⟨some 2, 1⟩ := by
  intro doc context
  have hs : 3 ≤ doc.length := by decide
  obtain ⟨hcore, -, hend, -⟩ := find_exactly doc context 3 true hs
  obtain ⟨hlater, -⟩ := (find_exactly doc context 1 true (by decide)).1 (by decide)
  refine ⟨hs, (hcore (by decide)).2.2 fun i hi hm => ?_, hend .trailing (by decide) ?_, ?_⟩
  · have hlen : i + 2 ≤ 4 := hm.1
    omega
  · intro closer hlt
    obtain rfl := Tier.penalty_eq_zero.1 (Nat.lt_one_iff.1 hlt)
    decide
  · refine (hlater 2 1).2 ⟨.trailing, rfl, ⟨⟨2, by decide, by decide⟩, ?_⟩, by decide, by decide, ?_⟩
    · intro closer hlt i hi hm
      obtain rfl := Tier.penalty_eq_zero.1 (Nat.lt_one_iff.1 hlt)
      have hlen : i + 2 ≤ 4 := hm.1
      obtain rfl | rfl : i = 1 ∨ i = 2 := by omega
      · exact absurd hm (by decide)
      · exact absurd hm (by decide)
    · intro j hj hlt
      obtain rfl : j = 1 := by omega
      decide

end Placement

end Emend
