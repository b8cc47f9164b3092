import Emend.Proofs.Envelope

namespace Emend

namespace Addition

def spell (content : Line) : Line := '+' :: content

variable {ls : List Line} {l : Line}

theorem writable_spell (h : Writable l) : Writable (spell l) := by
  constructor
  · intro hmem
    exact h.1 ((List.mem_cons.1 hmem).resolve_left (by decide))
  · intro hlast
    cases l with
    | nil => cases hlast
    | cons c l => exact h.2 hlast

theorem not_mem_of_writable_spell (h : Writable (spell l)) : '\n' ∉ l :=
  fun hmem => h.1 (List.mem_cons_of_mem _ hmem)

theorem startsWithAny_spell (l : Line) : Text.startsWithAny Marker.fileEnds (spell l) = false := rfl

theorem read_spell_cons (l : Line) (ls : List Line) :
    read (spell l :: ls) = (read ls).map (l :: ·) := by
  have hafter : Text.after? ['+'] (spell l) = some l := Text.after?_append ['+'] l
  rw [read, startsWithAny_spell, hafter]
  rfl

theorem read_spell (ls : List Line) : read (ls.map spell) = .ok ls := by
  induction ls with
  | nil => rfl
  | cons l ls ih => rw [List.map_cons, read_spell_cons, ih]; rfl

/-- A body spells out some lines, or it is refused for its first line without a plus sign. -/
theorem read_cases (hbody : ∀ l ∈ ls, Text.startsWithAny Marker.fileEnds l = false) :
    (∃ contents : List Line, ls = contents.map spell) ∨
      ∃ l, ls.find? (!List.isPrefixOf ['+'] ·) = some l ∧ read ls = .error (.invalidAddition l) := by
  induction ls with
  | nil => exact .inl ⟨[], rfl⟩
  | cons l ls ih =>
    obtain ⟨hl, hrest⟩ := List.forall_mem_cons.1 hbody
    cases hplus : Text.after? ['+'] l with
    | none =>
      have hlead : ['+'].isPrefixOf l = false :=
        Bool.eq_false_iff.2 fun hlead => by simp [Text.after?, hlead] at hplus
      refine .inr ⟨l, List.find?_cons_of_pos (by rw [hlead]; rfl), ?_⟩
      rw [read, hl, hplus]
      rfl
    | some content =>
      obtain rfl : l = spell content := Text.after?_eq_some.1 hplus
      rcases ih hrest with ⟨contents, rfl⟩ | ⟨first, hfirst, hread⟩
      · exact .inl ⟨content :: contents, rfl⟩
      · refine .inr ⟨first, (List.find?_cons_of_neg (by simp [spell])).trans hfirst, ?_⟩
        rw [read_spell_cons, hread]
        rfl

theorem patchLines_spell {t : Text} (h : ∀ l ∈ t.lines, l.getLast? ≠ some '\r') :
    patchLines (Text.ofLines (t.lines.map spell)) = t.lines.map spell := by
  refine patchLines_ofLines ?_ ?_
  · intro l hl
    obtain ⟨content, hcontent, rfl⟩ := List.mem_map.1 hl
    exact writable_spell ⟨Text.not_mem_of_mem_splitOn hcontent, h content hcontent⟩
  · -- Even an empty line is spelt with a plus sign, so no last line is lost.
    intro hlast
    obtain ⟨content, -, hcontent⟩ := List.mem_map.1 (List.mem_of_getLast? hlast)
    cases hcontent

end Addition

namespace Patched

theorem create_of_spelt {body : Text} {contents : List Line}
    (h : patchLines body = contents.map Addition.spell) :
    (create body).outcome = .ok (Text.ofLines contents, 0) := by
  show (Addition.text (patchLines body)).map (·, 0) = _
  rw [h, Addition.text, Addition.read_spell]
  rfl

theorem create_of_error {body : Text} {e : PatchError}
    (h : Addition.read (patchLines body) = .error e) : (create body).outcome = .error e := by
  show (Addition.text (patchLines body)).map (·, 0) = _
  rw [Addition.text, h]
  rfl

/-- A body that spells out a new file is read as exactly that text. A body that is read spells out its
result, line for line, and any other is refused for its first line without a plus sign. -/
theorem create_codec :
    (∀ doc t : Text, (∀ l ∈ t.lines, l.getLast? ≠ some '\r') →
      (ofKind .create doc (Text.ofLines (t.lines.map Addition.spell))).outcome = .ok (t, 0)) ∧
    ∀ doc body : Text, patchLines body ≠ [] →
      (∀ l ∈ patchLines body, Text.startsWithAny Marker.fileEnds l = false) →
      ((∃ r, (ofKind .create doc body).outcome = .ok r) ↔ ∀ l ∈ patchLines body, ['+'] <+: l) ∧
      (∀ t n, (ofKind .create doc body).outcome = .ok (t, n) →
        t.lines.map Addition.spell = patchLines body ∧ n = 0) ∧
      ∀ e, (ofKind .create doc body).outcome = .error e →
        ∃ l, (patchLines body).find? (!List.isPrefixOf ['+'] ·) = some l ∧ e = .invalidAddition l := by
  refine ⟨fun doc t ht => ?_, fun doc body hne hbody => ?_⟩
  · have hread : (create (Text.ofLines (t.lines.map Addition.spell))).outcome = _ :=
      create_of_spelt (Addition.patchLines_spell ht)
    rwa [Text.ofLines_lines] at hread
  · show ((∃ r, (create body).outcome = .ok r) ↔ _) ∧ (∀ t n, (create body).outcome = _ → _) ∧
      ∀ e, (create body).outcome = _ → _
    rcases Addition.read_cases hbody with ⟨contents, hspelt⟩ | ⟨first, hfirst, hread⟩
    · have hplus : ∀ l ∈ patchLines body, ['+'] <+: l := by
        intro l hl
        rw [hspelt] at hl
        obtain ⟨content, -, rfl⟩ := List.mem_map.1 hl
        exact ⟨content, rfl⟩
      have hcontents : contents ≠ [] := fun h => hne (by rw [hspelt, h]; rfl)
      have hfree : ∀ content ∈ contents, '\n' ∉ content := by
        intro content hcontent
        refine Addition.not_mem_of_writable_spell (writable_of_mem_patchLines (t := body) ?_)
        rw [hspelt]
        exact List.mem_map_of_mem hcontent
      rw [create_of_spelt hspelt]
      refine ⟨⟨fun _ => hplus, fun _ => ⟨_, rfl⟩⟩, ?_, nofun⟩
      rintro t n ⟨⟩
      rw [Text.lines_ofLines hfree hcontents]
      exact ⟨hspelt.symm, rfl⟩
    · rw [create_of_error hread]
      refine ⟨⟨nofun, fun hplus => ?_⟩, nofun, ?_⟩
      · have hlead := List.isPrefixOf_iff_prefix.2 (hplus first (List.mem_of_find?_eq_some hfirst))
        have hnot := List.find?_some hfirst
        rw [hlead] at hnot
        cases hnot
      · rintro e ⟨⟩
        exact ⟨first, hfirst, rfl⟩

theorem create_codec_samples :
    let t : Text := "*** End Patch\n\r+a\n".toList
    let body : Text := "+a\n\n-b".toList
    (ofKind .create [] "+*** End Patch\n+\r+a\n+".toList).outcome = .ok (t, 0) ∧
      ∃ e, (ofKind .create t body).outcome = .error e ∧ e = .invalidAddition [] := by
  intro t body
  have hread := create_codec.1 [] t (by decide +kernel)
  have hspelt : Text.ofLines (t.lines.map Addition.spell) = "+*** End Patch\n+\r+a\n+".toList := by
    decide +kernel
  rw [hspelt] at hread
  obtain ⟨hiff, -, herror⟩ := create_codec.2 t body (by decide +kernel) (by decide +kernel)
  have hfailed : ¬∃ r, (ofKind .create t body).outcome = .ok r := by
    rw [hiff]
    decide +kernel
  obtain ⟨e, he⟩ := Except.exists_error_iff.2 hfailed
  obtain ⟨l, hl, rfl⟩ := herror e he
  have hfirst : (patchLines body).find? (!List.isPrefixOf ['+'] ·) = some [] := by decide +kernel
  cases hfirst.symm.trans hl
  exact ⟨hread, _, he, rfl⟩

end Patched

end Emend
