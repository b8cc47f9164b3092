import Mathlib.Data.Nat.Find
import Emend.Patch.Anchor
import Emend.Patch.Context

namespace Emend

theorem firstUnpassed_bounds {normal : Line → Line} {target : Line} {doc : List Line}
    {cursor i : Nat} (h : firstUnpassed normal target doc cursor = some i) :
    cursor ≤ i ∧ i < doc.length := by
  unfold firstUnpassed at h
  split at h
  · cases h
  · obtain ⟨j, hj, rfl⟩ := Option.map_eq_some_iff.1 h
    obtain ⟨hlt, -⟩ := List.findIdx?_eq_some_iff_getElem.1 hj
    rw [List.length_drop] at hlt
    omega

theorem Jump.seek_bounds (anchor : Text) {doc : List Line} {cursor : Nat}
    (h : cursor ≤ doc.length) :
    cursor ≤ (seek anchor doc cursor).target ∧ (seek anchor doc cursor).target ≤ doc.length := by
  unfold seek
  split
  · next i hi =>
    have := firstUnpassed_bounds hi
    exact ⟨by simp only; omega, this.2⟩
  · split
    · next i hi =>
      have := firstUnpassed_bounds hi
      exact ⟨by simp only; omega, this.2⟩
    · exact ⟨Nat.le_refl _, h⟩

namespace Tier

@[simp] theorem normal_exact (l : Line) : exact.normal l = l := rfl

theorem matches_exact {doc context : List Line} {i : Nat} :
    exact.Matches doc context i ↔ i + context.length ≤ doc.length ∧ context <+: doc.drop i := by
  have hid : exact.normal = id := rfl
  simp only [Matches, hid, List.map_id, List.prefix_iff_eq_take]
  exact and_congr_right fun _ => eq_comm

theorem matches_nil {tier : Tier} {doc : List Line} {i : Nat} :
    tier.Matches doc [] i ↔ i ≤ doc.length := by
  simp [Matches]

theorem mem_all (tier : Tier) : tier ∈ all := by
  cases tier <;> simp [all]

theorem pairwise_all : all.Pairwise fun a b => a.penalty < b.penalty := by decide

/-- Some lines at or after `start` agree with the context under the tier, and none do under a closer
one. -/
def First (tier : Tier) (doc context : List Line) (start : Nat) : Prop :=
  (∃ i, start ≤ i ∧ tier.Matches doc context i) ∧
    ∀ closer : Tier, closer.penalty < tier.penalty → ∀ i, start ≤ i → ¬closer.Matches doc context i

/-- From `start` on, line `i` is the first from which the context agrees with the document. -/
def FirstAt (tier : Tier) (doc context : List Line) (start i : Nat) : Prop :=
  start ≤ i ∧ tier.Matches doc context i ∧ ∀ j, start ≤ j → j < i → ¬tier.Matches doc context j

variable {tier tier' : Tier} {doc context : List Line} {start i : Nat}

theorem firstMatch_eq_some_iff (hne : context ≠ []) :
    tier.firstMatch doc context start = some i ↔ tier.FirstAt doc context start i := by
  rw [firstMatch_eq_some]
  constructor
  · rintro ⟨hm, ⟨hs, -⟩, hfirst⟩
    exact ⟨hs, hm, hfirst⟩
  · rintro ⟨hs, hm, hfirst⟩
    have hpos := List.length_pos_iff.2 hne
    have hlen := hm.1
    exact ⟨hm, ⟨hs, by omega⟩, hfirst⟩

theorem firstMatch_eq_none (hne : context ≠ []) :
    tier.firstMatch doc context start = none ↔ ∀ i, start ≤ i → ¬tier.Matches doc context i := by
  constructor
  · intro hn i hi hm
    -- Of the places where the context agrees the first is found.
    classical
    let P (j : Nat) : Prop := start ≤ j ∧ tier.Matches doc context j
    have hex : ∃ j, P j := ⟨i, hi, hm⟩
    obtain ⟨hs, hfirst⟩ := Nat.find_spec hex
    have hpos := List.length_pos_iff.2 hne
    have hlen := hfirst.1
    have hsome : tier.firstMatch doc context start = some (Nat.find hex) :=
      firstMatch_eq_some.2 ⟨hfirst, ⟨hs, by omega⟩, fun j hj hlt hmj => Nat.find_min hex hlt ⟨hj, hmj⟩⟩
    rw [hn] at hsome
    cases hsome
  · intro h
    cases hi : tier.firstMatch doc context start with
    | none => rfl
    | some i =>
      obtain ⟨hm, ⟨hs, -⟩, -⟩ := firstMatch_eq_some.1 hi
      exact absurd hm (h i hs)

theorem mem_of_penalty_lt {before after : List Tier} (hall : all = before ++ tier :: after)
    (hlt : tier'.penalty < tier.penalty) : tier' ∈ before := by
  have hsorted := pairwise_all
  rw [hall] at hsorted
  have hmem := tier'.mem_all
  rw [hall] at hmem
  obtain hmem | hmem := List.mem_append.1 hmem
  · exact hmem
  · obtain ⟨hafter, -⟩ := List.pairwise_cons.1 (List.pairwise_append.1 hsorted).2.1
    obtain rfl | hmem := List.mem_cons.1 hmem
    · exact absurd hlt (Nat.lt_irrefl _)
    · exact absurd hlt (Nat.lt_asymm (hafter tier' hmem))

theorem penalty_lt_of_mem {before after : List Tier} (hall : all = before ++ tier :: after)
    (hmem : tier' ∈ before) : tier'.penalty < tier.penalty := by
  have hsorted := pairwise_all
  rw [hall] at hsorted
  exact (List.pairwise_append.1 hsorted).2.2 tier' hmem tier List.mem_cons_self

end Tier

namespace Placement

variable {doc context : List Line} {start i fuzz : Nat}

theorem locate_nil (doc : List Line) (start : Nat) : locate doc [] start = ⟨some start, 0⟩ := rfl

/-- Of the tiers under which the context agrees anywhere the first is taken, and of its lines the first. -/
theorem locate_eq_iff (hne : context ≠ []) : locate doc context start = ⟨some i, fuzz⟩ ↔
    ∃ tier : Tier, fuzz = tier.penalty ∧ tier.First doc context start ∧
      tier.FirstAt doc context start i := by
  have hempty : ¬context.isEmpty = true := fun he => hne (List.isEmpty_iff.1 he)
  rw [locate, if_neg hempty]
  constructor
  · intro h
    split at h
    · next tier j hfound =>
      cases h
      obtain ⟨before, tier', after, hall, htier, hbefore⟩ := List.findSome?_eq_some_iff.1 hfound
      obtain ⟨j, hj, he⟩ := Option.map_eq_some_iff.1 htier
      cases he
      have hfirst := (Tier.firstMatch_eq_some_iff hne).1 hj
      refine ⟨tier, rfl, ⟨⟨_, hfirst.1, hfirst.2.1⟩, fun closer hlt => ?_⟩, hfirst⟩
      have hnone := hbefore closer (Tier.mem_of_penalty_lt hall hlt)
      exact (Tier.firstMatch_eq_none hne).1 (Option.map_eq_none_iff.1 hnone)
    · cases h
  · rintro ⟨tier, rfl, hfirst, hat⟩
    obtain ⟨before, after, hall⟩ := List.append_of_mem tier.mem_all
    have hfound : (Tier.all.findSome? fun tier => (tier.firstMatch doc context start).map (tier, ·)) =
        some (tier, i) := by
      refine List.findSome?_eq_some_iff.2 ⟨before, tier, after, hall, ?_, fun closer hmem => ?_⟩
      · rw [(Tier.firstMatch_eq_some_iff hne).2 hat]
        rfl
      · have hlt := Tier.penalty_lt_of_mem hall hmem
        rw [(Tier.firstMatch_eq_none hne).2 (hfirst.2 closer hlt)]
        rfl
    rw [hfound]

theorem locate_first (h : locate doc context start = ⟨some i, fuzz⟩) (hs : start ≤ doc.length) :
    ∃ tier : Tier, fuzz = tier.penalty ∧ tier.First doc context start ∧
      tier.FirstAt doc context start i := by
  by_cases hne : context = []
  · rw [hne, locate_nil] at h
    cases h
    have hm : Tier.exact.Matches doc context start := hne ▸ Tier.matches_nil.2 hs
    refine ⟨.exact, rfl, ⟨⟨start, Nat.le_refl _, hm⟩, fun _ hlt => ?_⟩, Nat.le_refl _, hm, ?_⟩
    · exact absurd hlt (Nat.not_lt_zero _)
    · intro j hj hlt
      exact absurd hlt (Nat.not_lt.2 hj)
  · exact (locate_eq_iff hne).1 h

theorem locate_exact (h : context <+: doc.drop i) (hi : i ≤ doc.length) (hs : start ≤ i)
    (hfirst : ∀ j, start ≤ j → j < i → ¬context <+: doc.drop j) :
    locate doc context start = ⟨some i, 0⟩ := by
  by_cases hne : context = []
  · -- An empty context is found where the search starts, so it has to be meant there.
    have hnot : ¬start < i := fun hlt => hfirst start (Nat.le_refl _) hlt (hne ▸ List.nil_prefix)
    rw [hne, locate_nil, Nat.le_antisymm hs (Nat.not_lt.1 hnot)]
  · have hlen := h.length_le
    rw [List.length_drop] at hlen
    have hm : Tier.exact.Matches doc context i := Tier.matches_exact.2 ⟨by omega, h⟩
    refine (locate_eq_iff hne).2 ⟨.exact, rfl, ⟨⟨i, hs, hm⟩, fun _ hlt => ?_⟩, hs, hm, ?_⟩
    · exact absurd hlt (Nat.not_lt_zero _)
    · intro j hj hlt hmj
      exact hfirst j hj hlt (Tier.matches_exact.1 hmj).2

/-- The fuzz of a place is the penalty of a tier, or more by that of a missed end. -/
def Charged (tier : Tier) (eof : Bool) (fuzz : Nat) : Prop :=
  fuzz = tier.penalty ∨ eof = true ∧ fuzz = tier.penalty + eofFuzz

theorem find_eq_some {eof : Bool} (h : find doc context start eof = ⟨some i, fuzz⟩)
    (hs : start ≤ doc.length) : ∃ tier : Tier,
      Charged tier eof fuzz ∧ tier.Matches doc context i ∧ (eof = false → start ≤ i) := by
  unfold find at h
  split at h
  · next he =>
    dsimp only at h
    split at h
    · obtain ⟨tier, hf, -, -, hm, -⟩ := locate_first h (Nat.sub_le _ _)
      exact ⟨tier, .inl hf, hm, fun hn => by rw [he] at hn; cases hn⟩
    · -- Not found at the end: it is searched for from `start` on, and the missed end is charged.
      obtain ⟨hp, hf⟩ := Placement.mk.inj h
      have hloc : locate doc context start = ⟨some i, (locate doc context start).fuzz⟩ := by
        rw [← hp]
      obtain ⟨tier, ht, -, -, hm, -⟩ := locate_first hloc hs
      refine ⟨tier, .inr ⟨he, ?_⟩, hm, fun hn => by rw [he] at hn; cases hn⟩
      rw [← hf, ht]
  · obtain ⟨tier, hf, -, hle, hm, -⟩ := locate_first h hs
    exact ⟨tier, .inl hf, hm, fun _ => hle⟩

end Placement

end Emend
