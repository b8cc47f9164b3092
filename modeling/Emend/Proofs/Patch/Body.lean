import Mathlib.Algebra.GroupWithZero.Nat
import Mathlib.Data.List.Forall2
import Mathlib.Data.List.TakeWhile
import Emend.Proofs.Patch.Splice

namespace Emend

namespace Step

/-- The lines that some steps are read from, one for each. -/
def Spells (steps : List Step) (ls : List Line) : Prop :=
  List.Forall₂ (fun l s => ofLine? l = some s) ls steps

variable {s : Step} {steps : List Step} {ls : List Line} {l : Line} {role : Role}

theorem ofLine?_eq_some : ofLine? l = some s ↔ l = s.toLine ∨ l = [] ∧ s = ⟨.keep, []⟩ := by
  cases l with
  | nil =>
    constructor
    · rintro ⟨⟩
      exact .inr ⟨rfl, rfl⟩
    · rintro (hline | ⟨-, rfl⟩)
      · cases hline
      · rfl
  | cons c content =>
    obtain ⟨role, content'⟩ := s
    simp only [ofLine?, toLine, Option.map_eq_some_iff, Role.ofLead?_eq_some, List.cons.injEq,
      mk.injEq, reduceCtorEq, false_and, or_false]
    constructor
    · rintro ⟨role, rfl, rfl, rfl⟩
      exact ⟨rfl, rfl⟩
    · rintro ⟨rfl, rfl⟩
      exact ⟨role, rfl, rfl, rfl⟩

theorem head?_eq_lead (h : ofLine? l = some s) (hr : role ≠ .keep) :
    l.head? = some role.lead ↔ s.role = role := by
  obtain rfl | ⟨rfl, rfl⟩ := ofLine?_eq_some.1 h
  · obtain ⟨role', content⟩ := s
    cases role <;> cases role' <;> simp [toLine, Role.lead] at hr ⊢
  · simpa using hr.symm

/-- A line that states no step: it is not empty, and starts with the sign of no role. -/
def Malformed (l : Line) : Prop := l ≠ [] ∧ ∀ role : Role, l.head? ≠ some role.lead

theorem ofLine?_eq_none : ofLine? l = none ↔ Malformed l := by
  cases l with
  | nil => simp [ofLine?, Malformed]
  | cons c content =>
    rw [ofLine?, Option.map_eq_none_iff, Option.eq_none_iff_forall_ne_some]
    simp [Malformed, Role.ofLead?_eq_some]

theorem malformed_of_stars (h : ['*', '*', '*'] <+: l) : Malformed l := by
  obtain ⟨rest, rfl⟩ := h
  refine ⟨List.cons_ne_nil _ _, fun role => ?_⟩
  cases role <;> simp [Role.lead]

theorem exists_spells : (∃ steps, Spells steps ls) ↔ ∀ l ∈ ls, ¬Malformed l := by
  induction ls with
  | nil => exact ⟨fun _ => nofun, fun _ => ⟨[], .nil⟩⟩
  | cons l ls ih =>
    rw [List.forall_mem_cons, ← ih, ← ofLine?_eq_none]
    constructor
    · rintro ⟨_, hspells⟩
      cases hspells with
      | cons hl hspells => exact ⟨by simp [hl], _, hspells⟩
    · rintro ⟨hl, steps, hspells⟩
      obtain ⟨s, hs⟩ := Option.ne_none_iff_exists'.1 hl
      exact ⟨s :: steps, .cons hs hspells⟩

theorem content_of_ofLine? (h : ofLine? l = some s) : s.content = l.tail := by
  obtain rfl | ⟨rfl, rfl⟩ := ofLine?_eq_some.1 h
  · rfl
  · rfl

theorem Spells.contents (h : Spells steps ls) (hr : role ≠ .keep) :
    (steps.filter (·.role ≠ role)).map content =
      (ls.filter (·.head? ≠ some role.lead)).map List.tail := by
  induction h with
  | nil => rfl
  | @cons l s ls steps hl _ ih =>
    have hiff := head?_eq_lead hl hr
    by_cases hs : s.role = role
    · simpa [hs, hiff.2 hs] using ih
    · simpa [hs, mt hiff.1 hs, content_of_ofLine? hl] using ih

end Step

namespace Section

variable {ls rest : List Line} {l : Line} {steps : List Step} {s : Section} {c next : Cursor}

def bodyOf (ls : List Line) : List Line := ls.takeWhile fun l => !isEnd l

def behind (ls : List Line) : List Line := ls.dropWhile fun l => !isEnd l

theorem bodyOf_of_isEnd (h : isEnd l = true) (ls : List Line) : bodyOf (l :: ls) = [] :=
  List.takeWhile_cons_of_neg (by simp [h])

theorem behind_of_isEnd (h : isEnd l = true) (ls : List Line) : behind (l :: ls) = l :: ls :=
  List.dropWhile_cons_of_neg (by simp [h])

theorem bodyOf_cons (h : isEnd l = false) (ls : List Line) : bodyOf (l :: ls) = l :: bodyOf ls :=
  List.takeWhile_cons_of_pos (by simp [h])

theorem behind_cons (h : isEnd l = false) (ls : List Line) : behind (l :: ls) = behind ls :=
  List.dropWhile_cons_of_pos (by simp [h])

theorem bodyOf_append_behind (ls : List Line) : bodyOf ls ++ behind ls = ls :=
  List.takeWhile_append_dropWhile

theorem isEnd_of_mem_bodyOf (h : l ∈ bodyOf ls) : isEnd l = false := by
  simpa using List.mem_takeWhile_imp h

theorem isEnd_of_head?_behind (h : (behind ls).head? = some l) : isEnd l = true := by
  have hnot := List.head?_dropWhile_not (fun l => !isEnd l) ls
  rw [behind] at h
  rw [h] at hnot
  simpa using hnot

theorem readSteps_cons (hend : isEnd l = false) (ls : List Line) :
    readSteps (l :: ls) = match Step.ofLine? l with
      | none => .error (.invalidLine l)
      | some s => (readSteps ls).map fun (steps, rest) => (s :: steps, rest) := by
  rw [readSteps, if_neg (by simp [hend])]
  split
  · next hstars =>
    have hnone := Step.ofLine?_eq_none.2 (Step.malformed_of_stars (List.isPrefixOf_iff_prefix.1 hstars))
    rw [hnone]
  · rfl

/-- Reading takes the lines up to one that ends the section, and each of them states a step. -/
theorem readSteps_eq_ok : readSteps ls = .ok (steps, rest) ↔
    Step.Spells steps (bodyOf ls) ∧ rest = behind ls := by
  induction ls generalizing steps rest with
  | nil =>
    constructor
    · rintro ⟨⟩
      exact ⟨.nil, rfl⟩
    · rintro ⟨⟨⟩, rfl⟩
      rfl
  | cons l ls ih =>
    cases hend : isEnd l with
    | true =>
      rw [readSteps, if_pos hend, bodyOf_of_isEnd hend, behind_of_isEnd hend]
      constructor
      · rintro ⟨⟩
        exact ⟨.nil, rfl⟩
      · rintro ⟨⟨⟩, rfl⟩
        rfl
    | false =>
      rw [readSteps_cons hend, bodyOf_cons hend, behind_cons hend]
      constructor
      · intro h
        split at h
        · cases h
        · next s hs =>
          obtain ⟨⟨steps', rest'⟩, hread, he⟩ := Except.map_eq_ok.1 h
          cases he
          obtain ⟨hspells, hrest⟩ := ih.1 hread
          exact ⟨.cons hs hspells, hrest⟩
      · rintro ⟨hspells, hrest⟩
        cases hspells with
        | cons hs hspells =>
          rw [hs, ih.2 ⟨hspells, hrest⟩]
          rfl

/-- The section of a body that states its steps: it has one, or the marker behind it. -/
theorem read_eq_ok : read c = .ok (s, next) ↔
    Step.Spells s.steps (bodyOf c.rest) ∧
      (s.eof = true ↔ (behind c.rest).head? = some Marker.endOfFile) ∧
      (bodyOf c.rest ≠ [] ∨ s.eof = true) ∧
      next = ⟨c.index + (bodyOf c.rest).length + s.eof.toNat, (behind c.rest).drop s.eof.toNat⟩ := by
  constructor
  · intro h
    unfold read at h
    split at h
    · cases h
    · next steps rest hsteps =>
      obtain ⟨hspells, rfl⟩ := readSteps_eq_ok.1 hsteps
      rw [hspells.length_eq]
      dsimp only at h
      split at h
      · next hmark =>
        cases h
        exact ⟨hspells, ⟨fun _ => hmark, fun _ => rfl⟩, .inr rfl, rfl⟩
      · next hmark =>
        split at h
        · cases h
        · next hempty =>
          cases h
          refine ⟨hspells, ⟨nofun, fun hhead => absurd hhead hmark⟩, .inl fun hnil => ?_, rfl⟩
          rw [hnil] at hspells
          cases hspells
          exact hempty rfl
  · rintro ⟨hspells, hmark, hne, rfl⟩
    have hsteps : readSteps c.rest = .ok (s.steps, behind c.rest) :=
      readSteps_eq_ok.2 ⟨hspells, rfl⟩
    obtain ⟨steps, eof⟩ := s
    rw [read, hsteps, hspells.length_eq]
    cases eof with
    | true =>
      simp only [if_pos (hmark.1 rfl)]
      rfl
    | false =>
      have hsome : steps.isEmpty = false := by
        cases steps with
        | nil =>
          rw [List.forall₂_nil_right_iff.1 hspells] at hne
          simp at hne
        | cons => rfl
      simp only [if_neg (mt hmark.2 Bool.false_ne_true), hsome]
      rfl

theorem exists_ok : (∃ r, read c = .ok r) ↔ (∀ l ∈ bodyOf c.rest, ¬Step.Malformed l) ∧
    (bodyOf c.rest = [] → (behind c.rest).head? = some Marker.endOfFile) := by
  constructor
  · rintro ⟨⟨s, next⟩, h⟩
    obtain ⟨hspells, hmark, hne, -⟩ := read_eq_ok.1 h
    exact ⟨Step.exists_spells.1 ⟨_, hspells⟩, fun hnil => hmark.1 (hne.resolve_left (· hnil))⟩
  · rintro ⟨hbody, hmark⟩
    obtain ⟨steps, hspells⟩ := Step.exists_spells.2 hbody
    let s : Section := ⟨steps, decide ((behind c.rest).head? = some Marker.endOfFile)⟩
    have heof : s.eof = true ↔ (behind c.rest).head? = some Marker.endOfFile := decide_eq_true_iff
    refine ⟨(s, _), read_eq_ok.2 ⟨hspells, heof, ?_, rfl⟩⟩
    rw [heof]
    exact Decidable.not_or_of_imp hmark

end Section

end Emend
