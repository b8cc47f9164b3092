import Emend.Proofs.Patch.Consumption

namespace Emend

namespace Opening

variable {o : Opening} {ls : List Line}

theorem Spells.headed (h : o.Spells ls) (ho : o ≠ .absent) :
    ls ≠ [] ∧ ∀ l ∈ ls, bareLine <+: l := by
  cases h with
  | absent => exact absurd rfl ho
  | unnamed => exact ⟨List.cons_ne_nil _ _, by decide⟩
  | bare => exact ⟨List.cons_ne_nil _ _, by decide⟩
  | bareBehind => exact ⟨List.cons_ne_nil _ _, by decide⟩
  | anchored anchor =>
    refine ⟨List.cons_ne_nil _ _, fun l hl => ?_⟩
    rw [List.mem_singleton.1 hl]
    exact ⟨' ' :: anchor, rfl⟩

theorem read_rest_of_absent {c : Cursor} (h : (read c).1 = .absent) : (read c).2.rest = c.rest := by
  obtain ⟨ls, hspells, hrest⟩ := read_spells c
  rw [h] at hspells
  cases hspells
  exact hrest.symm

end Opening

/-- The next line ends a section, if there is one. -/
def Cursor.AtEnd (c : Cursor) : Prop := ∀ l ∈ c.rest.head?, Section.isEnd l = true

namespace Section

variable {s : Section} {c next : Cursor}

theorem atEnd_of_read (h : read c = .ok (s, next)) (he : s.eof = false) : next.AtEnd := by
  obtain ⟨-, -, -, rfl⟩ := read_eq_ok.1 h
  rw [he]
  exact fun l hl => isEnd_of_head?_behind hl

theorem head?_of_atEnd (h : read c = .ok (s, next)) (hc : c.AtEnd) :
    c.rest.head? = some Marker.endOfFile := by
  have hbody : bodyOf c.rest = [] := by
    cases hrest : c.rest with
    | nil => rfl
    | cons l rest => exact bodyOf_of_isEnd (hc l (by rw [hrest]; rfl)) rest
  obtain ⟨-, hmark, hne, -⟩ := read_eq_ok.1 h
  have hsplit := bodyOf_append_behind c.rest
  rw [hbody, List.nil_append] at hsplit
  rw [← hsplit]
  exact hmark.1 (hne.resolve_left (· hbody))

end Section

namespace Hunk

variable {doc : List Line} {cursor : Nat} {c next : Cursor} {h : Hunk}

/-- A section behind which the document is not passed at all is followed by the line that ended it. One that
has to end the document passes all of it, or lines of its own. -/
theorem ReadAt.atEnd (hh : ReadAt doc cursor c next h) (hdoc : doc ≠ []) (hf : h.finish = 0) :
    next.AtEnd := by
  cases he : h.body.eof with
  | false => exact Section.atEnd_of_read hh.body he
  | true =>
    obtain ⟨hp, hc⟩ := Nat.add_eq_zero_iff.1 hf
    have hplace := hh.place
    rw [he, List.length_eq_zero_iff.1 hc] at hplace
    have hend : some doc.length = some h.position := congrArg Placement.position hplace
    rw [hp] at hend
    exact absurd (List.length_eq_zero_iff.1 (Option.some.inj hend)) hdoc

theorem ReadAt.opening_ne_absent (hh : ReadAt doc cursor c next h) (hc : cursor = 0 → c.AtEnd) :
    h.opening ≠ .absent := by
  intro habsent
  have hzero : cursor = 0 := by
    have hadmits := hh.admitted
    rw [habsent] at hadmits
    exact of_decide_eq_true hadmits
  have hrest := Opening.read_rest_of_absent (hh.opening.symm.trans habsent)
  have hmark := Section.head?_of_atEnd hh.body (by rw [Cursor.AtEnd, hrest]; exact hc hzero)
  rw [hrest] at hmark
  -- The marker alone opens no section: the update ends there.
  obtain ⟨rest, hrest⟩ := List.head?_eq_some_iff.1 hmark
  have hlive := hh.live
  rw [Cursor.isDone, hrest] at hlive
  have hdone : Text.startsWithAny Marker.updateEnds Marker.endOfFile = true := by decide
  exact Bool.false_ne_true (hlive.symm.trans hdone)

def Headed (h : Hunk) (ls : List Line) : Prop :=
  ∃ header body, header ≠ [] ∧ (∀ l ∈ header, Opening.bareLine <+: l) ∧
    h.opening.Spells header ∧ h.body.Spells body ∧ ls = header ++ body

theorem Spells.headed {ls : List Line} (hs : h.Spells ls) (ho : h.opening ≠ .absent) : h.Headed ls := by
  obtain ⟨header, body, hheader, hbody, rfl⟩ := hs
  obtain ⟨hne, hlead⟩ := hheader.headed ho
  exact ⟨header, body, hne, hlead, hheader, hbody, rfl⟩

end Hunk

namespace Reading

variable {doc : List Line} {cursor : Nat} {c : Cursor} {r : Reading}

theorem Reads.opening_ne_absent (hr : Reads doc cursor c r) (hdoc : doc ≠ [])
    (hc : cursor = 0 → c.AtEnd) : ∀ h ∈ r.hunks, h.opening ≠ .absent := by
  induction hr with
  | finished => nofun
  | failed => nofun
  | hunk hh hr ih =>
    intro h hmem
    obtain rfl | hmem := List.mem_cons.1 hmem
    · exact hh.opening_ne_absent hc
    · exact ih (hh.atEnd hdoc) h hmem

/-- Whatever the first section is like, the document is passed behind it, or it ends at a line that is still
to be read: no later section is without a header. -/
theorem Reads.tail_opening_ne_absent (hr : Reads doc cursor c r) (hdoc : doc ≠ []) :
    ∀ h ∈ r.hunks.tail, h.opening ≠ .absent := by
  cases hr with
  | finished => nofun
  | failed => nofun
  | hunk hh hr => exact hr.opening_ne_absent hdoc (hh.atEnd hdoc)

/-- Only the first section of an update can lack a header. The lines of the patch that are read for any later
one start with a line that starts with the two signs of a header. -/
theorem later_headed (doc : Text) (ls : List Line) (h : (ofLines ls doc.lines).error? = none) :
    let hunks := (ofLines ls doc.lines).hunks
    ∃ parts unread, ls ++ [Marker.endPatch] = parts.flatten ++ unread ∧
      List.Forall₂ Hunk.Spells hunks parts ∧ List.Forall₂ Hunk.Headed hunks.tail parts.tail := by
  intro hunks
  have hreads := reads_ofLines ls doc.lines
  obtain ⟨parts, unread, hparts, hrest, -⟩ := hreads.consumes h
  have hopening := hreads.tail_opening_ne_absent (List.splitOn_ne_nil '\n' doc)
  refine ⟨parts, unread, hrest, hparts, ?_⟩
  have htail := List.forall₂_drop 1 hparts
  rw [List.drop_one, List.drop_one] at htail
  exact ((List.forall₂_and_left _ _).2 ⟨hopening, htail⟩).imp fun _ _ hboth => hboth.2.headed hboth.1

theorem later_headed_insertions :
    let ls := ["+x".toList, "@@".toList, "+y".toList, "@@ ".toList, "+z".toList, "@@ q".toList, " a".toList]
    let hunks := (ofLines ls (Text.lines "a\nb".toList)).hunks
    (ofLines ls (Text.lines "a\nb".toList)).error? = none ∧
      (hunks.map fun hunk => (hunk.opening, hunk.finish)) =
        [(.absent, 0), (.bare, 0), (.unnamed, 0), (.anchored ['q'], 1)] ∧
      ∃ parts : List (List Line), parts.length = 4 ∧
        List.Forall₂ Hunk.Headed hunks.tail parts.tail := by
  intro ls hunks
  have hread : (ofLines ls (Text.lines "a\nb".toList)).error? = none := by decide +kernel
  obtain ⟨parts, unread, -, hparts, hheaded⟩ := later_headed "a\nb".toList ls hread
  have hlength : hunks.length = 4 := by decide +kernel
  exact ⟨hread, by decide +kernel, parts, hparts.length_eq.symm.trans hlength, hheaded⟩

end Reading

end Emend
