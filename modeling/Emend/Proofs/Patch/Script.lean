import Emend.Proofs.Patch.Reading

namespace Emend

/-- A line that can be written in a patch: it holds no terminator, nor ends in half of one. -/
def Writable (l : Line) : Prop := '\n' ∉ l ∧ l.getLast? ≠ some '\r'

instance (l : Line) : Decidable (Writable l) := inferInstanceAs (Decidable (_ ∧ _))

theorem Writable.withoutReturns {l : Line} (h : Writable l) : Text.withoutReturns l = l := by
  have hhead : l.reverse.head? ≠ some '\r' := by rw [List.head?_reverse]; exact h.2
  unfold Text.withoutReturns
  cases hr : l.reverse with
  | nil => rw [List.reverse_eq_nil_iff.1 hr]; rfl
  | cons c r =>
    rw [hr] at hhead
    have hc : c ≠ '\r' := fun hc => hhead (congrArg some hc)
    rw [List.dropWhile_cons_of_neg (by simpa using hc), ← hr, List.reverse_reverse]

theorem Writable.toLine {s : Step} (h : Writable s.content) : Writable s.toLine := by
  obtain ⟨role, c⟩ := s
  constructor
  · intro hmem
    rcases List.mem_cons.1 hmem with hlead | hmem
    · cases role <;> cases hlead
    · exact h.1 hmem
  · intro hlast
    cases c with
    | nil => cases role <;> cases hlast
    | cons c cs => exact h.2 hlast

theorem patchLines_ofLines_eq {ls : List Line} (h : ∀ l ∈ ls, Writable l) :
    patchLines (Text.ofLines ls) = Text.withoutFinalEmpty ls := by
  by_cases hne : ls = []
  · rw [hne]
    rfl
  · have hmap : ls.map Text.withoutReturns = ls :=
      (List.map_congr_left fun l hl => (h l hl).withoutReturns).trans (List.map_id' ls)
    rw [patchLines, Text.lines_ofLines (fun l hl => (h l hl).1) hne, hmap]

theorem patchLines_ofLines {ls : List Line} (h : ∀ l ∈ ls, Writable l)
    (hlast : ls.getLast? ≠ some []) : patchLines (Text.ofLines ls) = ls := by
  rw [patchLines_ofLines_eq h, Text.withoutFinalEmpty, if_neg hlast]

theorem Section.isEnd_toLine (s : Step) : isEnd s.toLine = false := by
  obtain ⟨role, c⟩ := s
  cases role <;> rfl

theorem Section.readSteps_append (steps : List Step) {l : Line} (hl : isEnd l = true)
    (rest : List Line) :
    readSteps (steps.map Step.toLine ++ l :: rest) = .ok (steps, l :: rest) := by
  induction steps with
  | nil =>
    show readSteps (l :: rest) = _
    rw [readSteps, if_pos hl]
  | cons s steps ih =>
    have hstars : List.isPrefixOf ['*', '*', '*'] s.toLine = false := by
      obtain ⟨role, c⟩ := s
      cases role <;> rfl
    show readSteps (s.toLine :: (steps.map Step.toLine ++ l :: rest)) = _
    rw [readSteps, isEnd_toLine, hstars, Step.ofLine?_toLine, ih]
    rfl

/-- Lines of a document that stay as they are, and a hunk on the lines behind them. -/
structure Passage where
  gap : List Line
  steps : List Step
deriving DecidableEq, Repr

namespace Passage

def source (p : Passage) : List Line := p.gap ++ Step.context p.steps

def target (p : Passage) : List Line := p.gap ++ Step.outcome p.steps

def script (p : Passage) : List Line := Opening.bareLine :: p.steps.map Step.toLine

/-- From `start` on, each passage's context occurs for the first time at its own place. The next is
looked for behind it. -/
def FoundInPlace (doc : List Line) : Nat → List Passage → Prop
  | _, [] => True
  | start, p :: ps =>
    (∀ i, start ≤ i → i < start + p.gap.length → ¬Step.context p.steps <+: doc.drop i) ∧
      FoundInPlace doc (start + p.source.length) ps

instance decidableFoundInPlace (doc : List Line) :
    (start : Nat) → (ps : List Passage) → Decidable (FoundInPlace doc start ps)
  | _, [] => .isTrue trivial
  | start, p :: ps =>
    have := decidableFoundInPlace doc (start + p.source.length) ps
    decidable_of_iff
      ((∀ i ∈ List.range' start p.gap.length, ¬Step.context p.steps <+: doc.drop i) ∧
        FoundInPlace doc (start + p.source.length) ps) (by
      simp only [FoundInPlace, List.mem_range'_1, and_imp])

theorem script_isEnd (ps : List Passage) :
    ∃ l rest, ps.flatMap script ++ [Marker.endPatch] = l :: rest ∧ Section.isEnd l = true ∧
      l ≠ Marker.endOfFile := by
  cases ps with
  | nil => exact ⟨Marker.endPatch, [], rfl, by decide, by decide⟩
  | cons p ps => exact ⟨Opening.bareLine, _, rfl, by decide, by decide⟩

theorem read_script {p : Passage} (hp : p.steps ≠ []) (ps : List Passage) (index : Nat) :
    ∃ next : Cursor, next.rest = ps.flatMap script ++ [Marker.endPatch] ∧
      Section.read ⟨index, p.steps.map Step.toLine ++ (ps.flatMap script ++ [Marker.endPatch])⟩ =
        .ok (⟨p.steps, false⟩, next) := by
  obtain ⟨l, rest, hl, hend, hne⟩ := script_isEnd ps
  refine ⟨⟨index + p.steps.length, l :: rest⟩, hl.symm, ?_⟩
  have hsome : p.steps.isEmpty = false := by simpa using hp
  have hmark : ¬(l :: rest).head? = some Marker.endOfFile := fun h => hne (Option.some.inj h)
  simp only [Section.read, hl, Section.readSteps_append _ hend, if_neg hmark, hsome]
  rfl

end Passage

theorem Reading.read_bare {doc ls : List Line} {cursor index position fuzz : Nat} {s : Section}
    {next : Cursor} (hbody : Section.read ⟨index + 1, ls⟩ = .ok (s, next))
    (hplace : Placement.find doc s.context cursor s.eof = ⟨some position, fuzz⟩) :
    read doc cursor ⟨index, Opening.bareLine :: ls⟩ =
      .hunk ⟨.bare, none, index + 1, s, position, fuzz⟩
        (read doc (position + s.context.length) next) := by
  have hlive : Cursor.isDone ⟨index, Opening.bareLine :: ls⟩ Marker.updateEnds = false := rfl
  have hopen : Opening.read ⟨index, Opening.bareLine :: ls⟩ = (.bare, ⟨index + 1, ls⟩) := rfl
  rw [read, hlive]
  simp only [hopen, Opening.admits, Opening.jump?, Option.map_none, Option.getD_none]
  rw [if_neg Bool.false_ne_true, if_pos trivial]
  split
  · next e he => cases hbody.symm.trans he
  · next s' next' he =>
    cases hbody.symm.trans he
    rw [hplace]

namespace Passage

def hunk (p : Passage) (start index : Nat) : Hunk :=
  ⟨.bare, none, index + 1, ⟨p.steps, false⟩, start + p.gap.length, 0⟩

/-- A passage that is found in place is read as its hunk, and the reading goes on behind it. -/
theorem read_passage {doc rest front : List Line} {p : Passage} (hp : p.steps ≠ [])
    (hdoc : doc = front ++ (p.source ++ rest))
    (hfirst : ∀ i, front.length ≤ i → i < front.length + p.gap.length →
      ¬Step.context p.steps <+: doc.drop i) (ps : List Passage) (index : Nat) :
    ∃ next, Reading.read doc front.length
        ⟨index, (p :: ps).flatMap script ++ [Marker.endPatch]⟩ =
      .hunk (p.hunk front.length index) (Reading.read doc (front.length + p.source.length)
        ⟨next, ps.flatMap script ++ [Marker.endPatch]⟩) := by
  let place := front.length + p.gap.length
  have hsplit : doc = (front ++ p.gap) ++ (Step.context p.steps ++ rest) := by
    rw [hdoc, source, List.append_assoc, List.append_assoc]
  have hdrop : doc.drop place = Step.context p.steps ++ rest := by
    rw [hsplit]
    exact List.drop_left' (List.length_append ..)
  have hle : place ≤ doc.length := by
    rw [hsplit, List.length_append, List.length_append]
    exact Nat.le_add_right _ _
  have hfind : Placement.find doc (Step.context p.steps) front.length false = ⟨some place, 0⟩ :=
    Placement.locate_exact (hdrop ▸ List.prefix_append _ _) hle (Nat.le_add_right _ _) hfirst
  obtain ⟨⟨next, _⟩, rfl, hbody⟩ := read_script hp ps (index + 1)
  have hbare := Reading.read_bare hbody hfind
  refine ⟨next, ?_⟩
  rw [source, List.length_append, ← Nat.add_assoc, List.flatMap_cons, List.append_assoc]
  exact hbare

theorem spliceFrom_passage {length start : Nat} (p : Passage) (rest : List Line)
    {more : List Chunk} (hl : start + p.source.length ≤ length)
    (hm : ∀ ch ∈ more, (start + p.source.length : Int) ≤ ch.index) :
    Chunk.spliceFrom length start (p.source ++ rest)
        (Step.chunksAt (start + p.gap.length) p.steps ++ more) =
      (Chunk.spliceFrom length (start + p.source.length) rest more).map (p.target ++ ·) := by
  rw [source, List.length_append] at hl hm
  have hafter : ∀ ch ∈ Step.chunksAt (start + p.gap.length) p.steps ++ more,
      (start + p.gap.length : Int) ≤ ch.index := by
    intro ch hch
    rcases List.mem_append.1 hch with hch | hch
    · exact (Step.chunksAt_inside hch).1
    · have := hm ch hch
      omega
  rw [source, target, List.append_assoc, List.length_append, ← Nat.add_assoc, Chunk.map_append,
    Chunk.spliceFrom_append _ _ _ _ hafter,
    Step.spliceFrom_chunksAt _ _ (by omega) fun ch hch => by have := hm ch hch; omega]

/-- Read from where its first passage starts, a patch makes the hunks of all its passages. -/
theorem read_passages {doc tail : List Line} {ps : List Passage} (front : List Line) (index : Nat)
    (hdoc : doc = front ++ (ps.flatMap source ++ tail)) (hsteps : ∀ p ∈ ps, p.steps ≠ [])
    (hplace : FoundInPlace doc front.length ps) :
    let reading := Reading.read doc front.length ⟨index, ps.flatMap script ++ [Marker.endPatch]⟩
    reading.error? = none ∧ reading.fuzz = 0 ∧
      (∀ ch ∈ reading.chunks, (front.length : Int) ≤ ch.index) ∧
      Chunk.spliceFrom doc.length front.length (ps.flatMap source ++ tail) reading.chunks =
        .ok (ps.flatMap target ++ tail) := by
  intro reading
  induction ps generalizing front index with
  | nil =>
    have hdone : Cursor.isDone ⟨index, [Marker.endPatch]⟩ Marker.updateEnds = true := rfl
    have hread : reading = .finished := by
      show Reading.read doc front.length ⟨index, [Marker.endPatch]⟩ = .finished
      rw [Reading.read, if_pos hdone]
    rw [hread]
    exact ⟨rfl, rfl, nofun, rfl⟩
  | cons p ps ih =>
    -- The first passage goes over to `front`, so that the rest is read against the same document.
    obtain ⟨hfirst, hlater⟩ := hplace
    rw [List.flatMap_cons, List.append_assoc] at hdoc
    obtain ⟨next, hread⟩ := read_passage (hsteps p List.mem_cons_self) hdoc hfirst ps index
    rw [← List.append_assoc] at hdoc
    rw [← List.length_append] at hlater hread
    obtain ⟨herror, hfuzz, hindex, hsplice⟩ := ih (front ++ p.source) next hdoc
      (fun q hq => hsteps q (List.mem_cons_of_mem _ hq)) hlater
    replace hread : reading = _ := hread
    generalize Reading.read doc (front ++ p.source).length
      ⟨next, ps.flatMap script ++ [Marker.endPatch]⟩ = later at hread herror hfuzz hindex hsplice
    have hchunks : reading.chunks =
        Step.chunksAt (front.length + p.gap.length) p.steps ++ later.chunks := by
      rw [hread]
      exact congrArg (· ++ later.chunks) (Hunk.chunks_eq (p.hunk front.length index))
    have hend : front.length + p.source.length ≤ doc.length := by
      rw [hdoc, List.length_append, List.length_append]
      exact Nat.le_add_right _ _
    rw [List.length_append] at hindex hsplice
    refine ⟨?_, ?_, fun ch hch => ?_, ?_⟩
    · rw [hread]
      exact herror
    · rw [hread]
      show 0 + later.fuzz = 0
      rw [hfuzz]
    · rw [hchunks] at hch
      rcases List.mem_append.1 hch with hch | hch
      · have := (Step.chunksAt_inside hch).1
        omega
      · have := hindex ch hch
        omega
    · rw [hchunks, List.flatMap_cons, List.append_assoc, spliceFrom_passage p _ hend hindex, hsplice,
        List.flatMap_cons, List.append_assoc]
      rfl

theorem writable_script {p : Passage} (hp : ∀ s ∈ p.steps, Writable s.content) :
    ∀ l ∈ p.script, Writable l ∧ l ≠ [] := by
  intro l hl
  rcases List.mem_cons.1 hl with rfl | hl
  · exact ⟨by decide, nofun⟩
  · obtain ⟨s, hs, rfl⟩ := List.mem_map.1 hl
    exact ⟨(hp s hs).toLine, nofun⟩

end Passage

namespace Patched

/-- A patch that writes hunks out, each under a bare header, makes exactly these hunks where they are
meant, provided that no context occurs between the hunk before and its own place. -/
theorem update_scripts (ps : List Passage) (tail : List Line)
    (hne : ps.flatMap Passage.source ++ tail ≠ [])
    (hlines : ∀ l ∈ ps.flatMap Passage.source ++ tail, '\n' ∉ l)
    (hsteps : ∀ p ∈ ps, p.steps ≠ [] ∧ ∀ s ∈ p.steps, Writable s.content)
    (hplace : Passage.FoundInPlace (ps.flatMap Passage.source ++ tail) 0 ps) :
    (update (Text.ofLines (ps.flatMap Passage.source ++ tail))
        (Text.ofLines (ps.flatMap Passage.script))).outcome =
      .ok (Text.ofLines (ps.flatMap Passage.target ++ tail), 0) := by
  have hscript : ∀ l ∈ ps.flatMap Passage.script, Writable l ∧ l ≠ [] := by
    intro l hl
    obtain ⟨p, hp, hl⟩ := List.mem_flatMap.1 hl
    exact Passage.writable_script (hsteps p hp).2 l hl
  -- Each line that is written has a lead, so none is empty and the last one is not lost.
  have hpatch : patchLines (Text.ofLines (ps.flatMap Passage.script)) = ps.flatMap Passage.script :=
    patchLines_ofLines (fun l hl => (hscript l hl).1) fun hlast =>
      (hscript [] (List.mem_of_getLast? hlast)).2 rfl
  have hdoc := Text.lines_ofLines hlines hne
  obtain ⟨herror, hfuzz, -, hsplice⟩ :=
    Passage.read_passages [] 0 rfl (fun p hp => (hsteps p hp).1) hplace
  generalize ps.flatMap Passage.source ++ tail = doc at *
  let reading := Reading.ofLines (ps.flatMap Passage.script) doc
  replace herror : reading.error? = none := herror
  replace hfuzz : reading.fuzz = 0 := hfuzz
  replace hsplice : Chunk.splice doc reading.chunks = _ := hsplice
  rw [outcome_update (by rw [hpatch, hdoc]; exact herror), hpatch, hdoc, Chunk.apply, hdoc, hsplice]
  exact congrArg (fun n => Except.ok (_, n)) hfuzz

theorem update_scripts_repeated :
    let ps : List Passage :=
      [⟨["x".toList], [⟨.keep, "@@".toList⟩, ⟨.insert, "*** End Patch".toList⟩]⟩,
        ⟨["y".toList], [⟨.delete, "x".toList⟩, ⟨.insert, []⟩, ⟨.delete, "z".toList⟩]⟩]
    let doc := ps.flatMap Passage.source ++ ["x".toList]
    doc ≠ [] ∧ (∀ l ∈ doc, '\n' ∉ l) ∧
      (∀ p ∈ ps, p.steps ≠ [] ∧ ∀ s ∈ p.steps, Writable s.content) ∧ Passage.FoundInPlace doc 0 ps ∧
      (update "x\n@@\ny\nx\nz\nx".toList
          "@@\n @@\n+*** End Patch\n@@\n-x\n+\n-z".toList).outcome =
        .ok ("x\n@@\n*** End Patch\ny\n\nx".toList, 0) := by
  intro ps doc
  have hne : doc ≠ [] := by decide +kernel
  have hlines : ∀ l ∈ doc, '\n' ∉ l := by decide +kernel
  have hsteps : ∀ p ∈ ps, p.steps ≠ [] ∧ ∀ s ∈ p.steps, Writable s.content := by decide +kernel
  have hplace : Passage.FoundInPlace doc 0 ps := by decide +kernel
  have hupdate := update_scripts ps ["x".toList] hne hlines hsteps hplace
  have hdoc : Text.ofLines doc = "x\n@@\ny\nx\nz\nx".toList := by decide +kernel
  have hbody : Text.ofLines (ps.flatMap Passage.script) =
      "@@\n @@\n+*** End Patch\n@@\n-x\n+\n-z".toList := by decide +kernel
  have hresult : Text.ofLines (ps.flatMap Passage.target ++ ["x".toList]) =
      "x\n@@\n*** End Patch\ny\n\nx".toList := by decide +kernel
  rw [hbody, hresult] at hupdate
  exact ⟨hne, hlines, hsteps, hplace, hdoc ▸ hupdate⟩

end Patched

end Emend
