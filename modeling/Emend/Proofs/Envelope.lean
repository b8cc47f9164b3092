import Emend.Envelope
import Emend.Proofs.Except
import Emend.Proofs.Patch.Script

namespace Emend

namespace Text

theorem mem_of_mem_withoutFinalEmpty {ls : List Line} {l : Line} (h : l ∈ withoutFinalEmpty ls) :
    l ∈ ls := by
  unfold withoutFinalEmpty at h
  split at h
  · exact List.dropLast_subset ls h
  · exact h

end Text

theorem writable_withoutReturns {l : Line} (h : '\n' ∉ l) : Writable (Text.withoutReturns l) := by
  constructor
  · intro hmem
    have hsub := (List.dropWhile_sublist (fun c => decide (c = '\r')) (l := l.reverse)).mem
      (List.mem_reverse.1 hmem)
    exact h (List.mem_reverse.1 hsub)
  · rw [Text.withoutReturns, List.getLast?_reverse]
    intro hhead
    have hnot := List.head?_dropWhile_not (fun c => decide (c = '\r')) l.reverse
    rw [hhead] at hnot
    simp at hnot

theorem writable_of_mem_patchLines {t : Text} {l : Line} (h : l ∈ patchLines t) : Writable l := by
  obtain ⟨l, hl, rfl⟩ := List.mem_map.1 (Text.mem_of_mem_withoutFinalEmpty h)
  exact writable_withoutReturns (Text.not_mem_of_mem_splitOn hl)

namespace Header

variable {h : Header} {path : Text} {ls : List Line} {l : Line}

theorem mem_of_mem_takeWhile {p : Line → Bool} (hl : l ∈ ls.takeWhile p) : l ∈ ls ∧ p l = true :=
  ⟨(List.takeWhile_sublist p).mem hl, List.all_eq_true.1 List.all_takeWhile l hl⟩

theorem mem_of_mem_readMove (hl : l ∈ (readMove ls).2) : l ∈ ls := by
  unfold readMove at hl
  split at hl
  · exact hl
  · split at hl
    · exact List.mem_cons_of_mem _ hl
    · exact hl

theorem mem_of_mem_body (hl : l ∈ (h.operation path ls).1.body) : l ∈ ls ∧ isBody l = true := by
  cases h with
  | add => exact mem_of_mem_takeWhile hl
  | update => exact (mem_of_mem_takeWhile hl).imp_left mem_of_mem_readMove
  | delete => cases hl

theorem mem_of_mem_operation (hl : l ∈ (h.operation path ls).2) : l ∈ ls := by
  cases h with
  | add => exact (List.dropWhile_sublist _).mem hl
  | update => exact mem_of_mem_readMove ((List.dropWhile_sublist _).mem hl)
  | delete => exact hl

end Header

namespace Operation

/-- The operation is written among the lines: its header, the line that moves its file if there is one,
its body, and the line that ends the body. -/
def WrittenIn (ls : List Line) (op : Operation) : Prop :=
  ∃ before l lead after, ls = before ++ l :: (lead ++ op.body ++ after) ∧
    (∃ header, Header.read? l = some (header, op.path)) ∧
    (lead = [] ∨ ∃ m, lead = [m] ∧ Header.moveLead <+: m) ∧
    (∀ b ∈ op.body, Header.isBody b = true) ∧
    (op = .delete op.path ∨ ∃ e, after.head? = some e ∧ Header.isBody e = false)

theorem WrittenIn.append {ls : List Line} {op : Operation} (h : op.WrittenIn ls) (before : List Line) :
    op.WrittenIn (before ++ ls) := by
  obtain ⟨before', l, lead, after, rfl, h⟩ := h
  exact ⟨before ++ before', l, lead, after, (List.append_assoc _ _ _).symm, h⟩

end Operation

namespace Header

theorem path_operation (h : Header) (path : Text) (ls : List Line) :
    (h.operation path ls).1.path = path := by
  cases h <;> rfl

theorem head?_dropWhile_isBody {ls : List Line} (h : ls.dropWhile isBody ≠ []) :
    ∃ e, (ls.dropWhile isBody).head? = some e ∧ isBody e = false := by
  obtain ⟨e, rest, he⟩ := List.exists_cons_of_ne_nil h
  have hnot := List.head?_dropWhile_not isBody ls
  rw [he] at hnot ⊢
  exact ⟨e, rfl, by simpa using hnot⟩

theorem readMove_append (ls : List Line) : ∃ lead, ls = lead ++ (readMove ls).2 ∧
    (lead = [] ∨ ∃ m, lead = [m] ∧ moveLead <+: m) := by
  cases ls with
  | nil => exact ⟨[], rfl, .inl rfl⟩
  | cons l rest =>
    cases hm : Text.after? moveLead l with
    | none => exact ⟨[], by simp [readMove, hm], .inl rfl⟩
    | some dest =>
      refine ⟨[l], by simp [readMove, hm], .inr ⟨l, rfl, dest, ?_⟩⟩
      exact (Text.after?_eq_some.1 hm).symm

theorem operation_writtenIn {h : Header} {path : Text} {l : Line} {ls : List Line}
    (hl : read? l = some (h, path)) (hne : (h.operation path ls).2 ≠ []) :
    (h.operation path ls).1.WrittenIn (l :: ls) := by
  have hpath := h.path_operation path ls
  refine ⟨[], l, ?_⟩
  cases h with
  | delete => exact ⟨[], ls, rfl, ⟨_, hl⟩, .inl rfl, nofun, .inl rfl⟩
  | add =>
    refine ⟨[], _, ?_, ⟨_, hl⟩, .inl rfl, fun b hb => (mem_of_mem_body hb).2,
      .inr (head?_dropWhile_isBody hne)⟩
    exact congrArg (l :: ·) List.takeWhile_append_dropWhile.symm
  | update =>
    obtain ⟨lead, hlead, hmove⟩ := readMove_append ls
    refine ⟨lead, _, ?_, ⟨_, hl⟩, hmove, fun b hb => (mem_of_mem_body hb).2,
      .inr (head?_dropWhile_isBody hne)⟩
    refine congrArg (l :: ·) (hlead.trans ?_)
    rw [List.append_assoc]
    exact congrArg (lead ++ ·) List.takeWhile_append_dropWhile.symm

theorem operation_suffix (h : Header) (path : Text) (ls : List Line) :
    (h.operation path ls).2 <:+ ls := by
  cases h with
  | delete => exact List.suffix_refl ls
  | add => exact List.dropWhile_suffix isBody
  | update =>
    obtain ⟨lead, hlead, -⟩ := readMove_append ls
    exact (List.dropWhile_suffix isBody).trans ⟨lead, hlead.symm⟩

end Header

namespace Envelope

theorem readOperations_body {seen : List Text} {ls ends : List Line} {ops : List Operation}
    (h : readOperations seen ls = .ok (ops, ends)) :
    ∀ op ∈ ops, ∀ l ∈ op.body, l ∈ ls ∧ Header.isBody l = true := by
  induction seen, ls using readOperations.induct generalizing ops ends with
  | case1 seen =>
    rw [readOperations] at h
    cases h
    exact nofun
  | case2 seen l rest hend =>
    rw [readOperations, if_pos hend] at h
    cases h
    exact nofun
  | case3 seen l rest hend hblank ih =>
    rw [readOperations, if_neg hend, if_pos hblank] at h
    intro op hop l' hl'
    exact (ih h op hop l' hl').imp_left (List.mem_cons_of_mem _)
  | case4 seen l rest hend hblank hread =>
    rw [readOperations, if_neg hend, if_neg hblank, hread] at h
    cases h
  | case5 seen l rest hend hblank h' hread =>
    rw [readOperations, if_neg hend, if_neg hblank, hread] at h
    cases h
  | case6 seen l rest hend hblank h' path hread hpath hseen =>
    rw [readOperations, if_neg hend, if_neg hblank, hread] at h
    simp only [hpath, hseen, if_false, if_true] at h
    cases h
  | case7 seen l rest hend hblank header path hread hpath hseen ih =>
    rw [readOperations, if_neg hend, if_neg hblank, hread] at h
    simp only [hpath, hseen, if_false] at h
    obtain ⟨⟨ops', ends'⟩, hrest, he⟩ := Except.map_eq_ok.1 h
    cases he
    intro op hop l' hl'
    obtain rfl | hop := List.mem_cons.1 hop
    · exact (Header.mem_of_mem_body hl').imp_left (List.mem_cons_of_mem _)
    · obtain ⟨hmem, hbody⟩ := ih hrest op hop l' hl'
      exact ⟨List.mem_cons_of_mem _ (Header.mem_of_mem_operation hmem), hbody⟩

theorem read_body {t : Text} {ops : List Operation} (h : read t = .ok ops) :
    ∀ op ∈ ops, ∀ l ∈ op.body, Writable l ∧ Header.isBody l = true := by
  unfold read at h
  split at h
  · cases h
  · next l rest hlines =>
    split at h
    · split at h
      · cases h
      · next ops' ends hread =>
        split at h
        · cases h
          intro op hop l' hl'
          obtain ⟨hmem, hbody⟩ := readOperations_body hread op hop l' hl'
          have hline : l' ∈ patchLines t.trim := by
            rw [hlines]
            exact List.mem_cons_of_mem _ hmem
          exact ⟨writable_of_mem_patchLines hline, hbody⟩
        · cases h
    · cases h

theorem readOperations_writtenIn {seen : List Text} {ls ends : List Line} {ops : List Operation}
    (h : readOperations seen ls = .ok (ops, ends)) (hne : ends ≠ []) :
    ends <:+ ls ∧ ∀ op ∈ ops, op.WrittenIn ls := by
  induction seen, ls using readOperations.induct generalizing ops ends with
  | case1 seen =>
    rw [readOperations] at h
    cases h
    exact absurd rfl hne
  | case2 seen l rest hend =>
    rw [readOperations, if_pos hend] at h
    cases h
    exact ⟨List.suffix_refl _, nofun⟩
  | case3 seen l rest hend hblank ih =>
    rw [readOperations, if_neg hend, if_pos hblank] at h
    obtain ⟨hsuffix, hops⟩ := ih h hne
    exact ⟨hsuffix.trans (List.suffix_cons l rest), fun op hop => (hops op hop).append [l]⟩
  | case4 seen l rest hend hblank hread =>
    rw [readOperations, if_neg hend, if_neg hblank, hread] at h
    cases h
  | case5 seen l rest hend hblank h' hread =>
    rw [readOperations, if_neg hend, if_neg hblank, hread] at h
    cases h
  | case6 seen l rest hend hblank h' path hread hpath hseen =>
    rw [readOperations, if_neg hend, if_neg hblank, hread] at h
    simp only [hpath, hseen, if_false, if_true] at h
    cases h
  | case7 seen l rest hend hblank header path hread hpath hseen ih =>
    rw [readOperations, if_neg hend, if_neg hblank, hread] at h
    simp only [hpath, hseen, if_false] at h
    obtain ⟨⟨ops', ends'⟩, hrest, he⟩ := Except.map_eq_ok.1 h
    cases he
    obtain ⟨hsuffix, hops⟩ := ih hrest hne
    obtain ⟨skipped, hskipped⟩ := header.operation_suffix path rest
    refine ⟨hsuffix.trans ⟨l :: skipped, congrArg (l :: ·) hskipped⟩, fun op hop => ?_⟩
    obtain rfl | hop := List.mem_cons.1 hop
    · refine Header.operation_writtenIn hread fun hnil => hne ?_
      rw [hnil] at hsuffix
      exact List.suffix_nil.1 hsuffix
    · have hwritten := (hops op hop).append (l :: skipped)
      rwa [List.cons_append, hskipped] at hwritten

theorem read_writtenIn {t : Text} {ops : List Operation} (h : read t = .ok ops) :
    ∀ op ∈ ops, op.WrittenIn (patchLines t.trim) := by
  unfold read at h
  split at h
  · cases h
  · next l rest hlines =>
    split at h
    · split at h
      · cases h
      · next ops' ends hread =>
        split at h
        · next hone =>
          cases h
          have hne : ends ≠ [] := by
            rintro rfl
            cases hone
          intro op hop
          rw [hlines]
          exact ((readOperations_writtenIn hread hne).2 op hop).append [l]
        · cases h
    · cases h

/-- The body of each operation is a run of lines of the patch. From the operation's diff these are read
again as they are, but for a last one that is empty: that one is lost. -/
theorem read_rereads (t : Text) (ops : List Operation) (h : read t = .ok ops) :
    ∀ op ∈ ops, op.WrittenIn (patchLines t.trim) ∧
      patchLines op.diff = Text.withoutFinalEmpty op.body ∧
      (patchLines op.diff = op.body ↔ op.body.getLast? ≠ some []) := by
  intro op hop
  have hdiff : patchLines op.diff = Text.withoutFinalEmpty op.body :=
    patchLines_ofLines_eq fun l hl => (read_body h op hop l hl).1
  refine ⟨read_writtenIn h op hop, hdiff, ?_⟩
  rw [hdiff, Text.withoutFinalEmpty]
  split
  · next hlast =>
    have hne : op.body.dropLast ≠ op.body := by
      intro he
      have hlen := congrArg List.length he
      cases hbody : op.body with
      | nil => simp [hbody] at hlast
      | cons l ls => simp [hbody] at hlen
    exact ⟨fun he => absurd he hne, fun hn => absurd hlast hn⟩
  · next hlast => exact ⟨fun _ => hlast, fun _ => rfl⟩

theorem read_rereads_returns :
    let t : Text := "*** Begin Patch\n*** Update File: a\n*** Move to: b\n x\ry\n\n-z\n*** End Patch".toList
    let op := Operation.update ['a'] [" x\ry".toList, [], "-z".toList] (some ['b'])
    read t = .ok [op] ∧ op.WrittenIn (patchLines t.trim) ∧ patchLines op.diff = op.body := by
  intro t op
  have hread : read t = .ok [op] := by decide +kernel
  obtain ⟨hwritten, -, hsame⟩ := read_rereads t [op] hread op (List.mem_singleton.2 rfl)
  exact ⟨hread, hwritten, hsame.2 (by decide)⟩

/-- Not every body takes effect as it is written: here the blank line is lost, and the line to delete is
found where no blank one follows. -/
theorem not_read_rereads_blank :
    ¬∀ (t : Text) (ops : List Operation), read t = .ok ops → ∀ op ∈ ops,
      patchLines op.diff = op.body ∧
        ∀ doc, (Reading.ofLines (patchLines op.diff) doc).result = (Reading.ofLines op.body doc).result := by
  intro h
  let op := Operation.update ['a'] ["-x".toList, []] none
  have hread : read "*** Begin Patch\n*** Update File: a\n-x\n\n*** End Patch".toList = .ok [op] := by
    decide +kernel
  obtain ⟨-, hresult⟩ := h _ _ hread op (List.mem_singleton.2 rfl)
  have hdiffer := hresult [['x'], ['y'], ['x'], [], ['z']]
  revert hdiffer
  decide +kernel

end Envelope

namespace Addition

theorem read_eq_ok {ls contents : List Line} (hbody : ∀ l ∈ ls, Header.isBody l = true)
    (h : read ls = .ok contents) : contents = ls.filterMap (Text.after? ['+']) := by
  induction ls generalizing contents with
  | nil =>
    cases h
    rfl
  | cons l ls ih =>
    obtain ⟨hl, hbody⟩ := List.forall_mem_cons.1 hbody
    have hend : Text.startsWithAny Marker.fileEnds l = false := by simpa [Header.isBody] using hl
    rw [read, hend] at h
    simp only [Bool.false_eq_true, if_false] at h
    split at h
    · cases h
    · next content hcontent =>
      obtain ⟨rest, hrest, rfl⟩ := Except.map_eq_ok.1 h
      rw [List.filterMap_cons_some hcontent, ih hbody hrest]

end Addition

theorem Patched.create_eq_ok {body : List Line} {text : Text} {n : Nat}
    (hbody : ∀ l ∈ body, Writable l ∧ Header.isBody l = true)
    (h : (Patched.create (Text.ofLines body)).outcome = .ok (text, n)) :
    text = Text.ofLines (body.filterMap (Text.after? ['+'])) := by
  have hlines : (patchLines (Text.ofLines body)) = Text.withoutFinalEmpty body :=
    patchLines_ofLines_eq fun l hl => (hbody l hl).1
  have hempty : (Text.withoutFinalEmpty body).filterMap (Text.after? ['+']) =
      body.filterMap (Text.after? ['+']) := by
    unfold Text.withoutFinalEmpty
    split
    · next hlast =>
      obtain ⟨ls, rfl⟩ := List.getLast?_eq_some_iff.1 hlast
      simp [Text.after?]
    · rfl
  obtain ⟨text', htext, he⟩ := Except.map_eq_ok.1 h
  cases he
  obtain ⟨contents, hread, rfl⟩ := Except.map_eq_ok.1 htext
  rw [hlines] at hread
  rw [Addition.read_eq_ok (fun l hl => (hbody l (Text.mem_of_mem_withoutFinalEmpty hl)).2) hread, hempty]

end Emend
