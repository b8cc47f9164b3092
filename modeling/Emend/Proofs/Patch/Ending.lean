import Emend.Proofs.Patch.Alignment
import Emend.Proofs.Patch.Search
import Emend.Proofs.Patch.Script
import Emend.Proofs.Text.Joined

namespace Emend

namespace Placement

variable {doc context : List Line} {tier : Tier} {l : Line}

theorem find_suffix (front context : List Line) (start : Nat) :
    find (front ++ context) context start true = ⟨some front.length, 0⟩ := by
  have hlast : (front ++ context).length - context.length = front.length := by
    rw [List.length_append, Nat.add_sub_cancel]
  have hm : Tier.exact.Matches (front ++ context) context front.length := by
    rw [Tier.matches_exact, List.drop_left, List.length_append]
    exact ⟨Nat.le_refl _, List.prefix_rfl⟩
  rw [← hlast] at hm ⊢
  exact find_at_end hm fun closer hlt => absurd hlt (Nat.not_lt_zero _)

theorem not_matches_before_empty (hl : l.trim ≠ []) :
    ¬tier.Matches (doc ++ [[]]) (context ++ [l])
      ((doc ++ [[]]).length - (context ++ [l]).length) := by
  intro hm
  have hlen := hm.1
  simp only [List.length_append, List.length_singleton] at hlen
  have hlast := hm.surrounding.normal_getElem? (j := context.length) (by simp)
  have hindex : (doc ++ [[]]).length - (context ++ [l]).length + context.length = doc.length := by
    simp only [List.length_append, List.length_singleton]
    omega
  rw [hindex, List.getElem?_concat_length, List.getElem?_concat_length] at hlast
  exact hl (Option.some.inj hlast).symm

/-- In front of an empty line a context is not found at the end, but where it occurs for the first time. -/
theorem find_before_empty {start i : Nat} (hl : l.trim ≠ []) (h : context ++ [l] <+: doc.drop i)
    (hs : start ≤ i) (hfirst : ∀ j, start ≤ j → j < i → ¬context ++ [l] <+: doc.drop j) :
    find (doc ++ [[]]) (context ++ [l]) start true = ⟨some i, eofFuzz⟩ := by
  have hlen := h.length_le
  simp only [List.length_append, List.length_singleton, List.length_drop] at hlen
  have hdrop (j : Nat) (hj : j ≤ i) : (doc ++ [[]]).drop j = doc.drop j ++ [[]] :=
    List.drop_append_of_le_length (by omega)
  have hlocate : locate (doc ++ [[]]) (context ++ [l]) start = ⟨some i, 0⟩ := by
    refine locate_exact ?_ ?_ hs fun j hsj hj hprefix => hfirst j hsj hj ?_
    · rw [hdrop i (Nat.le_refl _)]
      exact h.trans (List.prefix_append _ _)
    · rw [List.length_append]
      omega
    · rw [hdrop j (Nat.le_of_lt hj), List.prefix_concat_iff] at hprefix
      refine hprefix.resolve_left fun he => hl ?_
      rw [List.singleton_inj.1 (List.append_inj_right' he rfl), Text.trim_nil]
  rw [find_elsewhere fun tier => not_matches_before_empty hl, hlocate, Nat.zero_add]

theorem exists_first_occurrence {i : Nat} (h : context <+: doc.drop i) :
    ∃ before after, doc = before ++ (context ++ after) ∧
      ∀ j < before.length, ¬context <+: doc.drop j := by
  have hex : ∃ j, context <+: doc.drop j := ⟨i, h⟩
  obtain ⟨after, hafter⟩ := Nat.find_spec hex
  refine ⟨doc.take (Nat.find hex), after, ?_, fun j hj => Nat.find_min hex ?_⟩
  · rw [hafter, List.take_append_drop]
  · exact Nat.lt_of_lt_of_le hj (List.length_take_le _ _)

end Placement

namespace Passage

def lastScript (steps : List Step) : List Line :=
  Opening.bareLine :: steps.map Step.toLine ++ [Marker.endOfFile]

theorem read_lastScript {doc : List Line} {p : Passage} {fuzz : Nat}
    (hplace : Placement.find doc (Step.context p.steps) 0 true = ⟨some p.gap.length, fuzz⟩) :
    Reading.ofLines (lastScript p.steps) doc =
      .hunk ⟨.bare, none, 1, ⟨p.steps, true⟩, p.gap.length, fuzz⟩ .finished := by
  have hsteps : Section.readSteps (p.steps.map Step.toLine ++ [Marker.endOfFile, Marker.endPatch]) =
      .ok (p.steps, [Marker.endOfFile, Marker.endPatch]) :=
    Section.readSteps_append p.steps (by decide) [Marker.endPatch]
  have hbody : Section.read ⟨1, p.steps.map Step.toLine ++ [Marker.endOfFile, Marker.endPatch]⟩ =
      .ok (⟨p.steps, true⟩, ⟨1 + p.steps.length + 1, [Marker.endPatch]⟩) := by
    simp only [Section.read, hsteps]
    rfl
  have hread : Reading.read doc 0 ⟨0, Opening.bareLine ::
      (p.steps.map Step.toLine ++ [Marker.endOfFile, Marker.endPatch])⟩ = _ :=
    Reading.read_bare hbody hplace
  have hdone : Cursor.isDone ⟨1 + p.steps.length + 1, [Marker.endPatch]⟩ Marker.updateEnds = true := rfl
  rw [Reading.read.eq_def doc _ ⟨1 + p.steps.length + 1, _⟩, if_pos hdone] at hread
  rw [Reading.ofLines, lastScript, List.append_assoc]
  exact hread

theorem writable_lastScript {steps : List Step} (h : ∀ s ∈ steps, Writable s.content) :
    ∀ l ∈ lastScript steps, Writable l := by
  intro l hl
  rcases List.mem_append.1 hl with hl | hl
  · exact (writable_script (p := ⟨[], steps⟩) h l hl).1
  · rw [List.mem_singleton.1 hl]
    decide

end Passage

namespace Patched

theorem update_lastScript (p : Passage) (rest : List Line) {fuzz : Nat}
    (hne : p.source ++ rest ≠ []) (hlines : ∀ l ∈ p.source ++ rest, '\n' ∉ l)
    (hsteps : ∀ s ∈ p.steps, Writable s.content)
    (hplace : Placement.find (p.source ++ rest) (Step.context p.steps) 0 true =
      ⟨some p.gap.length, fuzz⟩) :
    (update (Text.ofLines (p.source ++ rest)) (Text.ofLines (Passage.lastScript p.steps))).outcome =
      .ok (Text.ofLines (p.target ++ rest), fuzz) := by
  have hpatch : patchLines (Text.ofLines (Passage.lastScript p.steps)) = Passage.lastScript p.steps :=
    patchLines_ofLines (Passage.writable_lastScript hsteps) (by
      rw [Passage.lastScript, List.getLast?_concat]
      decide)
  have hdoc := Text.lines_ofLines hlines hne
  let reading := Reading.ofLines (Passage.lastScript p.steps) (p.source ++ rest)
  have hread : reading = .hunk ⟨.bare, none, 1, ⟨p.steps, true⟩, p.gap.length, fuzz⟩ .finished :=
    Passage.read_lastScript hplace
  have hchunks : reading.chunks = Step.chunksAt (0 + p.gap.length) p.steps ++ [] := by
    rw [hread, Nat.zero_add]
    exact congrArg (· ++ []) (Hunk.chunks_eq ⟨.bare, none, 1, ⟨p.steps, true⟩, p.gap.length, fuzz⟩)
  have hfuzz : reading.fuzz = fuzz := by
    rw [hread]
    exact Nat.zero_add fuzz
  have hsplice : Chunk.splice (p.source ++ rest) reading.chunks = .ok (p.target ++ rest) := by
    rw [hchunks, Chunk.splice, Passage.spliceFrom_passage p rest (by simp) (by simp)]
    rfl
  rw [outcome_update (by rw [hpatch, hdoc]; exact congrArg Reading.error? hread), hpatch, hdoc,
    Chunk.apply, hdoc, hsplice]
  exact congrArg (fun n => Except.ok (_, n)) hfuzz

theorem update_lastScript_terminated {doc before after : List Line} {steps : List Step} {fuzz : Nat}
    (hdoc : doc = before ++ (Step.context steps ++ after)) (hne : doc ≠ []) (hlines : ∀ l ∈ doc, '\n' ∉ l)
    (hsteps : ∀ s ∈ steps, Writable s.content)
    (hplace : Placement.find (doc ++ [[]]) (Step.context steps) 0 true = ⟨some before.length, fuzz⟩) :
    (update (Text.ofLines doc ++ ['\n']) (Text.ofLines (Passage.lastScript steps))).outcome =
      .ok (Text.ofLines (before ++ (Step.outcome steps ++ (after ++ [[]]))), fuzz) := by
  have hmade := @update_lastScript ⟨before, steps⟩ (after ++ [[]]) fuzz
  have hsource : before ++ Step.context steps ++ (after ++ [[]]) = doc ++ [[]] := by
    rw [hdoc]
    simp only [List.append_assoc]
  have htext : Text.ofLines doc ++ ['\n'] = Text.ofLines (doc ++ [[]]) := by
    rw [Text.ofLines, Text.ofLines, Text.intercalate_append hne (List.cons_ne_nil [] []),
      List.intercalate_singleton]
  simp only [Passage.source, Passage.target, hsource] at hmade
  rw [htext, ← List.append_assoc before]
  refine hmade (List.append_ne_nil_of_left_ne_nil hne _) (fun l hl => ?_) hsteps hplace
  rcases List.mem_append.1 hl with hl | hl
  · exact hlines l hl
  · rw [List.mem_singleton.1 hl]
    exact List.not_mem_nil

/-- A hunk that has to end the document, and on whose lines it ends, is made there without a fuzz, wherever
else its lines occur. Behind a final terminator the document ends in an empty line. If the last line of the
hunk is not blank, it is then made where its lines occur for the first time, and the missed end is charged;
the terminator stays. -/
theorem update_at_end (front : List Line) (steps : List Step) (hcontext : Step.context steps ≠ [])
    (hfront : ∀ l ∈ front, '\n' ∉ l) (hsteps : ∀ s ∈ steps, Writable s.content) :
    let doc := front ++ Step.context steps
    let body := Text.ofLines (Opening.bareLine :: steps.map Step.toLine ++ [Marker.endOfFile])
    (update (Text.ofLines doc) body).outcome =
      .ok (Text.ofLines (front ++ Step.outcome steps), 0) ∧
    ((∀ l ∈ (Step.context steps).getLast?, l.trim ≠ []) →
      ∃ before after, doc = before ++ (Step.context steps ++ after) ∧
        (∀ j < before.length, ¬Step.context steps <+: doc.drop j) ∧
          (update (Text.ofLines doc ++ ['\n']) body).outcome =
            .ok (Text.ofLines (before ++ (Step.outcome steps ++ (after ++ [[]]))), 10000)) := by
  intro doc body
  have hlines : ∀ l ∈ doc, '\n' ∉ l := by
    intro l hl
    rcases List.mem_append.1 hl with hl | hl
    · exact hfront l hl
    · obtain ⟨s, hs, rfl⟩ := List.mem_map.1 hl
      exact (hsteps s (List.mem_filter.1 hs).1).1
  have hne : doc ≠ [] := List.append_ne_nil_of_right_ne_nil front hcontext
  constructor
  · have hplace := Placement.find_suffix front (Step.context steps) 0
    have hmade := @update_lastScript ⟨front, steps⟩ [] 0
    simp only [Passage.source, Passage.target, List.append_nil] at hmade
    exact hmade hne hlines hsteps hplace
  · intro hlast
    have hoccurs : Step.context steps <+: doc.drop front.length :=
      ⟨[], by rw [List.append_nil, List.drop_left]⟩
    obtain ⟨before, after, hdoc, hfirst⟩ := Placement.exists_first_occurrence hoccurs
    refine ⟨before, after, hdoc, hfirst, update_lastScript_terminated hdoc hne hlines hsteps ?_⟩
    obtain ⟨context, l, hl⟩ : ∃ context l, Step.context steps = context ++ [l] :=
      ⟨_, _, (List.dropLast_append_getLast hcontext).symm⟩
    have hink : l.trim ≠ [] := hlast l (by rw [hl, List.getLast?_concat]; rfl)
    rw [hl] at hdoc hfirst ⊢
    refine Placement.find_before_empty hink ?_ (Nat.zero_le _) fun j _ hj => hfirst j hj
    rw [hdoc, List.drop_left]
    exact List.prefix_append _ _

theorem update_at_end_repeated :
    let front := [['a'], ['b']]
    let steps : List Step := [⟨.keep, ['a']⟩, ⟨.delete, ['b']⟩, ⟨.insert, ['B']⟩]
    let body := "@@\n a\n-b\n+B\n*** End of File".toList
    Step.context steps ≠ [] ∧ (∀ l ∈ front, '\n' ∉ l) ∧ (∀ s ∈ steps, Writable s.content) ∧
      (update "a\nb\na\nb".toList body).outcome = .ok ("a\nb\na\nB".toList, 0) ∧
      (update "a\nb\na\nb\n".toList body).outcome = .ok ("a\nB\na\nb\n".toList, 10000) := by
  intro front steps body
  have hcontext : Step.context steps ≠ [] := by decide
  have hfront : ∀ l ∈ front, '\n' ∉ l := by decide
  have hsteps : ∀ s ∈ steps, Writable s.content := by decide
  obtain ⟨hend, hterminated⟩ := update_at_end front steps hcontext hfront hsteps
  obtain ⟨before, after, hdoc, hfirst, hmade⟩ := hterminated (by decide +kernel)
  have hbody : Text.ofLines (Opening.bareLine :: steps.map Step.toLine ++ [Marker.endOfFile]) = body := by
    decide +kernel
  have hbefore : before = [] := by
    by_contra hne
    exact hfirst 0 (List.length_pos_iff.2 hne) (by decide)
  subst hbefore
  obtain rfl : after = [['a'], ['b']] := (List.append_cancel_left hdoc).symm
  rw [hbody] at hend hmade
  exact ⟨hcontext, hfront, hsteps, hend, hmade⟩

/-- Behind a final terminator the hunk is not made at the end of the document if its lines occur before. -/
theorem not_update_at_end_terminated :
    ¬∀ (front : List Line) (steps : List Step), Step.context steps ≠ [] → (∀ l ∈ front, '\n' ∉ l) →
      (∀ s ∈ steps, Writable s.content) → (∀ l ∈ (Step.context steps).getLast?, l.trim ≠ []) →
        (update (Text.ofLines (front ++ Step.context steps) ++ ['\n'])
          (Text.ofLines (Opening.bareLine :: steps.map Step.toLine ++ [Marker.endOfFile]))).outcome =
            .ok (Text.ofLines (front ++ Step.outcome steps) ++ ['\n'], 0) := by
  intro hall
  have hmade := hall [['x'], ['y']] [⟨.delete, ['x']⟩, ⟨.insert, ['z']⟩] (by decide) (by decide) (by decide)
    (by decide)
  revert hmade
  decide +kernel

end Patched

end Emend
