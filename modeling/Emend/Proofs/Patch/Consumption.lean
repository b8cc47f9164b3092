import Emend.Proofs.Patch.Alignment
import Emend.Proofs.Patch.Body

namespace Emend

/-- The lines that the opening of a section is read from. -/
inductive Opening.Spells : Opening → List Line → Prop
  | absent : Spells .absent []
  | unnamed : Spells .unnamed [anchorLead]
  | bare : Spells .bare [bareLine]
  | bareBehind : Spells .bare [anchorLead, bareLine]
  | anchored (anchor : Text) : Spells (.anchored anchor) [anchorLead ++ anchor]

namespace Opening

variable {o : Opening} {ls : List Line} {l : Line}

theorem read_spells (c : Cursor) : ∃ ls, (read c).1.Spells ls ∧ c.rest = ls ++ (read c).2.rest := by
  unfold read
  split
  · exact ⟨[], .absent, rfl⟩
  · next l rest hrest =>
    split
    · next hl =>
      obtain rfl : l = anchorLead := (Text.after?_eq_some.1 hl).trans (List.append_nil _)
      split
      · next hbare =>
        obtain ⟨rest, rfl⟩ := List.head?_eq_some_iff.1 hbare
        refine ⟨[anchorLead, bareLine], .bareBehind, ?_⟩
        rw [Cursor.advance, hrest]
        rfl
      · refine ⟨[anchorLead], .unnamed, ?_⟩
        rw [Cursor.advance, hrest]
        rfl
    · next anchor _ hl =>
      obtain rfl := Text.after?_eq_some.1 hl
      refine ⟨[anchorLead ++ anchor], .anchored anchor, ?_⟩
      rw [Cursor.advance, hrest]
      rfl
    · split
      · next hl =>
        subst hl
        refine ⟨[bareLine], .bare, ?_⟩
        rw [Cursor.advance, hrest]
        rfl
      · exact ⟨[], .absent, rfl⟩

theorem Spells.head? (h : o.Spells ls) : ∀ l ∈ ls, l.head? = some '@' := by
  cases h <;> simp [anchorLead, bareLine]

end Opening

namespace Step

variable {s : Step} {steps : List Step} {ls : List Line} {l : Line} {role : Role}

theorem Spells.countP (h : Spells steps ls) (hr : role ≠ .keep) :
    ls.countP (·.head? = some role.lead) = (steps.filter (·.role = role)).length := by
  induction h with
  | nil => rfl
  | @cons l s ls steps hl _ ih =>
    have hiff := head?_eq_lead hl hr
    by_cases hs : s.role = role
    · simp [hs, hiff.2 hs, ih]
    · simp [hs, mt hiff.1 hs, ih]

theorem length_deletedAt (place : Nat) (steps : List Step) :
    (deletedAt place steps).length = (deleted steps).length := by
  induction steps generalizing place with
  | nil => rfl
  | cons s steps ih =>
    obtain ⟨role, c⟩ := s
    cases role with
    | keep => exact ih (place + 1)
    | insert => exact ih place
    | delete => exact congrArg (· + 1) (ih (place + 1))

end Step

namespace Section

variable {s : Section} {steps : List Step} {ls rest : List Line} {l : Line} {c c' : Cursor}

def Spells (s : Section) (ls : List Line) : Prop :=
  ∃ body, Step.Spells s.steps body ∧ ls = body ++ if s.eof then [Marker.endOfFile] else []

/-- A section takes up the lines it is read from, the marker behind it included. -/
structure Consumes (c c' : Cursor) (s : Section) (ls : List Line) : Prop where
  spells : s.Spells ls
  rest : c.rest = ls ++ c'.rest
  ne_nil : ls ≠ []
  not_mem : Marker.endPatch ∉ ls
  marked : c'.rest.head? = some Marker.endOfFile → ls.getLast? = some Marker.endOfFile

theorem read_consumes (h : read c = .ok (s, c')) : ∃ ls, Consumes c c' s ls := by
  obtain ⟨hspells, hmark, hne, rfl⟩ := read_eq_ok.1 h
  have hpatch : Marker.endPatch ∉ bodyOf c.rest := by
    intro hmem
    have hend := isEnd_of_mem_bodyOf hmem
    revert hend
    decide
  cases heof : s.eof with
  | true =>
    obtain ⟨rest, hrest⟩ := List.head?_eq_some_iff.1 (hmark.1 heof)
    refine ⟨bodyOf c.rest ++ [Marker.endOfFile], ⟨_, hspells, by rw [heof]; rfl⟩, ?_, by simp, ?_,
      fun _ => List.getLast?_concat⟩
    · rw [List.append_assoc, hrest]
      exact (bodyOf_append_behind c.rest).symm.trans (congrArg _ hrest)
    · simpa [hpatch] using (by decide : Marker.endPatch ≠ Marker.endOfFile)
  | false =>
    rw [heof] at hmark hne
    refine ⟨bodyOf c.rest, ⟨_, hspells, by rw [heof]; exact (List.append_nil _).symm⟩,
      (bodyOf_append_behind c.rest).symm, hne.resolve_right Bool.false_ne_true, hpatch, fun hhead => ?_⟩
    exact absurd (hmark.2 hhead) Bool.false_ne_true

end Section

namespace Hunk

variable {doc : List Line} {cursor : Nat} {c next : Cursor} {h : Hunk} {ls : List Line} {role : Role}

def Spells (h : Hunk) (ls : List Line) : Prop :=
  ∃ header body, h.opening.Spells header ∧ h.body.Spells body ∧ ls = header ++ body

theorem ReadAt.consumes (hh : ReadAt doc cursor c next h) :
    ∃ ls, h.Spells ls ∧ c.rest = ls ++ next.rest ∧ Marker.endPatch ∉ ls ∧ ls ≠ [] ∧
      (next.rest.head? = some Marker.endOfFile → ls.getLast? = some Marker.endOfFile) := by
  obtain ⟨header, hheader, hrest⟩ := Opening.read_spells c
  obtain ⟨body, hbody⟩ := Section.read_consumes hh.body
  refine ⟨header ++ body, ⟨header, body, hh.opening ▸ hheader, hbody.spells, rfl⟩, ?_, ?_, ?_, ?_⟩
  · rw [hrest, hbody.rest, List.append_assoc]
  · intro hmem
    obtain hmem | hmem := List.mem_append.1 hmem
    · have hhead := hheader.head? _ hmem
      revert hhead
      decide
    · exact hbody.not_mem hmem
  · exact List.append_ne_nil_of_right_ne_nil header hbody.ne_nil
  · intro hhead
    rw [List.getLast?_append, hbody.marked hhead]
    rfl

theorem Spells.countP (h' : h.Spells ls) (hr : role ≠ .keep) :
    ls.countP (·.head? = some role.lead) = (h.body.steps.filter (·.role = role)).length := by
  obtain ⟨header, _, hheader, ⟨body, hbody, rfl⟩, rfl⟩ := h'
  have hheader : header.countP (·.head? = some role.lead) = 0 := by
    refine List.countP_eq_zero.2 fun l hl => ?_
    rw [hheader.head? l hl]
    cases role <;> decide
  have hmark : (if h.body.eof then [Marker.endOfFile] else []).countP
      (·.head? = some role.lead) = 0 := by
    cases h.body.eof <;> cases role <;> decide
  rw [List.countP_append, List.countP_append, hheader, hmark, hbody.countP hr, Nat.zero_add, Nat.add_zero]

end Hunk

/-- A line behind some others that starts as the end-of-file marker does, and ends no section: there is
none, it is not the marker, or the section has been ended already. -/
def Marker.Stray (before : List Line) (l : Line) : Prop :=
  endOfFile <+: l ∧ (before = [] ∨ l ≠ endOfFile ∨ before.getLast? = some endOfFile)

namespace Reading

variable {doc : List Line} {cursor : Nat} {c : Cursor} {r : Reading} {ls : List Line} {role : Role}

/-- A reading that comes to its end has taken up the lines before a marker. -/
theorem Reads.consumes (hr : Reads doc cursor c r) (hn : r.error? = none) :
    ∃ parts unread, List.Forall₂ Hunk.Spells r.hunks parts ∧ c.rest = parts.flatten ++ unread ∧
      Marker.endPatch ∉ parts.flatten ∧ Cursor.isDone ⟨0, unread⟩ Marker.updateEnds = true ∧
      (unread.head? = some Marker.endOfFile →
        parts = [] ∨ parts.flatten.getLast? = some Marker.endOfFile) := by
  induction hr with
  | @finished cursor c hdone => exact ⟨[], c.rest, .nil, rfl, nofun, hdone, fun _ => .inl rfl⟩
  | failed => cases hn
  | hunk hh hr ih =>
    obtain ⟨ls, hspells, hrest, hpatch, hne, hmarked⟩ := hh.consumes
    obtain ⟨parts, unread, hparts, hunread, hnot, hdone, hlast⟩ := ih hn
    refine ⟨ls :: parts, unread, .cons hspells hparts, ?_, ?_, hdone, fun hhead => .inr ?_⟩
    · rw [hrest, hunread, List.flatten_cons, List.append_assoc]
    · rw [List.flatten_cons, List.mem_append, not_or]
      exact ⟨hpatch, hnot⟩
    · rw [List.flatten_cons, List.getLast?_append]
      obtain rfl | hlast := hlast hhead
      · rw [List.flatten_nil, List.nil_append] at hunread
        rw [hmarked (hunread ▸ hhead)]
        rfl
      · rw [hlast]
        rfl

theorem countP_flatten {hunks : List Hunk} {parts : List (List Line)}
    (h : List.Forall₂ Hunk.Spells hunks parts) (hr : role ≠ .keep) :
    parts.flatten.countP (·.head? = some role.lead) =
      (hunks.map fun hunk => (hunk.body.steps.filter (·.role = role)).length).sum := by
  induction h with
  | nil => rfl
  | cons hspells _ ih =>
    rw [List.flatten_cons, List.countP_append, hspells.countP hr, ih, List.map_cons, List.sum_cons]

theorem ofLines_consumes (hls : ∀ l ∈ ls, Text.startsWithAny Marker.fileEnds l = false)
    (hn : (ofLines ls doc).error? = none) :
    ∃ parts unread, List.Forall₂ Hunk.Spells (ofLines ls doc).hunks parts ∧
      ls = parts.flatten ++ unread ∧
      (unread = [] ∨ ∃ l rest, unread = l :: rest ∧ Marker.Stray parts.flatten l) := by
  obtain ⟨parts, unread, hparts, hrest, hnot, hdone, hlast⟩ := (reads_ofLines ls doc).consumes hn
  -- The end of the patch is among what is not read.
  have hrest : ls ++ [Marker.endPatch] = parts.flatten ++ unread := hrest
  obtain ⟨unread, rfl⟩ : ∃ front, unread = front ++ [Marker.endPatch] := by
    obtain ⟨more, htaken, hend⟩ | ⟨front, -, hunread⟩ := List.append_eq_append_iff.1 hrest
    · cases more with
      | nil => exact ⟨[], hend.symm⟩
      | cons l more =>
        obtain ⟨rfl, -⟩ := List.cons.inj hend
        exact absurd (htaken ▸ List.mem_append_right ls List.mem_cons_self) hnot
    · exact ⟨front, hunread⟩
  rw [← List.append_assoc] at hrest
  obtain rfl := List.append_cancel_right hrest
  refine ⟨parts, unread, hparts, rfl, ?_⟩
  cases unread with
  | nil => exact .inl rfl
  | cons l rest =>
    refine .inr ⟨l, rest, rfl, ?_⟩
    have hl := hls l (by simp)
    have hmarker : Marker.endOfFile <+: l := by
      have hend : Text.startsWithAny Marker.updateEnds l = true := hdone
      rw [Text.startsWithAny, Marker.updateEnds, List.any_append] at hend
      rw [Text.startsWithAny] at hl
      simpa [hl] using hend
    refine ⟨hmarker, ?_⟩
    by_cases he : l = Marker.endOfFile
    · subst he
      obtain rfl | hlast := hlast rfl
      · exact .inl rfl
      · exact .inr (.inr hlast)
    · exact .inr (.inl he)

end Reading

namespace Patched

/-- No line of an update is passed over in front of a stray marker: each is one of a header or of a
body, or it ends a section. As many lines are inserted and deleted as start with the signs for it. -/
theorem update_consumes (doc body t : Text) (fuzz : Nat)
    (hbody : ∀ l ∈ patchLines body, Text.startsWithAny Marker.fileEnds l = false)
    (h : (update doc body).outcome = .ok (t, fuzz)) :
    let hunks := (Reading.ofLines (patchLines body) doc.lines).hunks
    ∃ (parts : List (List Line)) (unread : List Line) (script : List Step),
      List.Forall₂ Hunk.Spells hunks parts ∧ patchLines body = parts.flatten ++ unread ∧
      (unread = [] ∨ ∃ l rest, unread = l :: rest ∧ Marker.Stray parts.flatten l) ∧
      t = Text.ofLines (Step.outcome script) ∧ Step.context script = doc.lines ∧
      (Step.inserted script).length = parts.flatten.countP (·.head? = some '+') ∧
      (Step.deletedAt 0 script).length = parts.flatten.countP (·.head? = some '-') := by
  intro hunks
  obtain ⟨parts, unread, hparts, hlines, hstray⟩ :=
    Reading.ofLines_consumes hbody (error?_eq_none h)
  obtain ⟨script, ho, hc, hi, hd⟩ := exists_script h
  refine ⟨parts, unread, script, hparts, hlines, hstray, ho, hc, ?_, ?_⟩
  · rw [hi, List.length_flatMap, show '+' = Role.insert.lead from rfl,
      Reading.countP_flatten hparts (by decide)]
    simp [Step.inserted]
  · rw [hd, List.length_flatMap, show '-' = Role.delete.lead from rfl,
      Reading.countP_flatten hparts (by decide)]
    simp [Step.length_deletedAt, Step.deleted]

theorem update_consumes_two_sections :
    let doc := "a\nb\nc".toList
    let body := "-a\n+x\n b\n@@\n c\n+y".toList
    (update doc body).outcome = .ok ("x\nb\nc\ny".toList, 0) ∧
      (∀ l ∈ patchLines body, Text.startsWithAny Marker.fileEnds l = false) ∧
      ∃ script : List Step,
        "x\nb\nc\ny".toList = Text.ofLines (Step.outcome script) ∧
        Step.context script = Text.lines doc ∧
        (Step.inserted script).length = 2 ∧ (Step.deletedAt 0 script).length = 1 := by
  intro doc body
  have houtcome : (update doc body).outcome = .ok ("x\nb\nc\ny".toList, 0) := by decide +kernel
  have hbody : ∀ l ∈ patchLines body, Text.startsWithAny Marker.fileEnds l = false := by
    decide +kernel
  have hmark : ∀ l ∈ patchLines body, ¬Marker.endOfFile <+: l := by decide +kernel
  obtain ⟨parts, unread, script, -, hlines, hstray, ho, hc, hi, hd⟩ :=
    update_consumes doc body _ _ hbody houtcome
  obtain rfl : unread = [] := by
    obtain h | ⟨l, rest, rfl, hl⟩ := hstray
    · exact h
    · exact absurd hl.1 (hmark l (hlines ▸ List.mem_append_right _ List.mem_cons_self))
  rw [List.append_nil] at hlines
  rw [← hlines] at hi hd
  exact ⟨houtcome, hbody, script, ho, hc, hi.trans (by decide +kernel), hd.trans (by decide +kernel)⟩

/-- A blank behind the end-of-file marker, and the deletion under it is passed over. -/
theorem not_update_consumes_marker :
    ¬∀ doc body t fuzz, (∀ l ∈ patchLines body, Text.startsWithAny Marker.fileEnds l = false) →
      (update doc body).outcome = .ok (t, fuzz) →
        ((Reading.ofLines (patchLines body) doc.lines).hunks.map fun hunk =>
          (Step.deleted hunk.body.steps).length).sum =
            (patchLines body).countP (·.head? = some '-') := by
  intro hall
  have hcount := hall "a\nb".toList "-a\n*** End of File \n-b".toList "b".toList 0
    (by decide +kernel) (by decide +kernel)
  revert hcount
  decide +kernel

end Patched

end Emend
