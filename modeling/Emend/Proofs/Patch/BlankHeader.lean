import Mathlib.Data.List.Chain
import Emend.Proofs.Patch.Header

namespace Emend

namespace Hunk

variable {doc : List Line} {cursor : Nat} {c next : Cursor} {h : Hunk}

theorem ReadAt.read_eq (hh : ReadAt doc cursor c next h) :
    Reading.read doc cursor c = .hunk h (Reading.read doc h.finish next) := by
  obtain ⟨opening, jump, start, body, position, fuzz⟩ := h
  obtain ⟨hlive, hopening, hadm, hjump, hstart, hbody, hplace⟩ := hh
  dsimp only at hopening hadm hjump hstart hbody hplace
  subst hopening hjump hstart
  rw [Reading.read, hlive]
  dsimp only
  rw [if_neg Bool.false_ne_true, if_pos hadm]
  split
  · next e he => cases hbody.symm.trans he
  · next s' next' he =>
    cases hbody.symm.trans he
    replace hplace : Placement.find doc body.context
        ((((Opening.read c).1.jump? doc cursor).map Jump.target).getD cursor) body.eof = _ := hplace
    rw [hplace]
    rfl

end Hunk

namespace Reading

theorem read_cases (doc : List Line) (cursor : Nat) (c : Cursor) :
    (c.isDone Marker.updateEnds = true ∧ read doc cursor c = .finished) ∨
      (∃ next h, Hunk.ReadAt doc cursor c next h ∧ read doc cursor c = .hunk h (read doc h.finish next)) ∨
      c.isDone Marker.updateEnds = false ∧ (∀ next h, ¬Hunk.ReadAt doc cursor c next h) ∧
        (read doc cursor c).error? ≠ none := by
  by_cases hhunk : ∃ next h, Hunk.ReadAt doc cursor c next h
  · obtain ⟨next, h, hh⟩ := hhunk
    exact .inr (.inl ⟨next, h, hh, hh.read_eq⟩)
  · cases hdone : c.isDone Marker.updateEnds with
    | true => exact .inl ⟨rfl, by rw [read, if_pos hdone]⟩
    | false =>
      refine .inr (.inr ⟨rfl, fun next h hh => hhunk ⟨next, h, hh⟩, ?_⟩)
      have hreads := reads doc cursor c
      generalize read doc cursor c = r at hreads
      cases hreads with
      | finished hd => exact absurd (hdone.symm.trans hd) Bool.false_ne_true
      | failed => exact nofun
      | hunk hh => exact absurd ⟨_, _, hh⟩ hhunk

theorem result_hunk (h : Hunk) (rest : Reading) :
    (hunk h rest).result.toOption =
      rest.result.toOption.map fun (chunks, fuzz) => (h.chunks ++ chunks, h.totalFuzz + fuzz) := by
  have herror : (hunk h rest).error? = rest.error? := rfl
  rw [result, herror, result]
  cases rest.error? with
  | none => rfl
  | some e => rfl

theorem result_of_error (r : Reading) (h : r.error? ≠ none) : r.result.toOption = none := by
  obtain ⟨e, he⟩ := Option.ne_none_iff_exists'.1 h
  rw [result, he]
  rfl

end Reading

theorem Cursor.advance_advance (c : Cursor) (m n : Nat) :
    (c.advance m).advance n = c.advance (m + n) := by
  simp only [advance, List.drop_drop, Nat.add_assoc]

namespace Opening

/-- A bare header may be written with blanks behind its signs. -/
def Respelt (l l' : Line) : Prop :=
  l' = l ∨ l = bareLine ∧ ∃ anchor, Text.trim anchor = [] ∧ l' = anchorLead ++ anchor

/-- At line `i` there is a header with a single blank, and a bare one behind it. The two are read as
one. -/
def Paired (ls : List Line) (i : Nat) : Prop := ls[i]? = some anchorLead ∧ ls[i + 1]? = some bareLine

variable {l l' : Line} {ls ls' : List Line}

theorem Respelt.isEnd (h : Respelt l l') : Section.isEnd l' = Section.isEnd l := by
  rcases h with rfl | ⟨rfl, anchor, -, rfl⟩
  · rfl
  · rfl

theorem Respelt.startsWithAny (h : Respelt l l') :
    Text.startsWithAny Marker.updateEnds l' = Text.startsWithAny Marker.updateEnds l := by
  rcases h with rfl | ⟨rfl, anchor, -, rfl⟩
  · rfl
  · rfl

theorem Respelt.eq_endOfFile (h : Respelt l l') : l' = Marker.endOfFile ↔ l = Marker.endOfFile := by
  rcases h with rfl | ⟨rfl, anchor, -, rfl⟩
  · rfl
  · exact ⟨nofun, nofun⟩

/-- Lines with some bare headers respelt, so that no two headers come together or apart. -/
structure Respells (ls ls' : List Line) : Prop where
  lines : List.Forall₂ Respelt ls ls'
  pairs : ∀ i, Paired ls i ↔ Paired ls' i

theorem Respells.drop (h : Respells ls ls') (n : Nat) : Respells (ls.drop n) (ls'.drop n) := by
  refine ⟨List.forall₂_drop n h.lines, fun i => ?_⟩
  simpa only [Paired, List.getElem?_drop, Nat.add_assoc] using h.pairs (n + i)

theorem getElem?_concat (ls : List Line) (i : Nat) {l l' : Line} (hl : l ≠ l') :
    (ls ++ [l'])[i]? = some l ↔ ls[i]? = some l := by
  rw [List.getElem?_append]
  split
  · rfl
  · next hi =>
    rw [List.getElem?_eq_none (Nat.le_of_not_lt hi), List.getElem?_singleton]
    split
    · simp [hl.symm]
    · rfl

theorem Respells.concat (h : Respells ls ls') :
    Respells (ls ++ [Marker.endPatch]) (ls' ++ [Marker.endPatch]) := by
  refine ⟨List.rel_append h.lines (.cons (.inl rfl) .nil), fun i => ?_⟩
  have hlead : anchorLead ≠ Marker.endPatch := by decide
  have hbare : bareLine ≠ Marker.endPatch := by decide
  simpa only [Paired, getElem?_concat _ _ hlead, getElem?_concat _ _ hbare] using h.pairs i

theorem Respells.cons_inv (h : Respells (l :: ls) (l' :: ls')) : Respelt l l' ∧
    (l = anchorLead ∧ ls.head? = some bareLine ↔ l' = anchorLead ∧ ls'.head? = some bareLine) := by
  obtain ⟨hlines, hpairs⟩ := h
  cases hlines with
  | cons hl hrest =>
    refine ⟨hl, ?_⟩
    have hpair := hpairs 0
    simpa [Paired, List.head?_eq_getElem?] using hpair

theorem Respells.bodyOf (h : Respells ls ls') : Section.bodyOf ls' = Section.bodyOf ls := by
  obtain ⟨hlines, -⟩ := h
  induction hlines with
  | nil => rfl
  | @cons l l' ls ls' hl hrest ih =>
    cases hend : Section.isEnd l with
    | true => rw [Section.bodyOf_of_isEnd hend, Section.bodyOf_of_isEnd (hl.isEnd.trans hend)]
    | false =>
      rw [Section.bodyOf_cons hend, Section.bodyOf_cons (hl.isEnd.trans hend), ih]
      rcases hl with rfl | ⟨rfl, -⟩
      · rfl
      · cases hend

theorem Respells.head?_eq_endOfFile (h : Respells ls ls') :
    ls'.head? = some Marker.endOfFile ↔ ls.head? = some Marker.endOfFile := by
  obtain ⟨hlines, -⟩ := h
  cases hlines with
  | nil => rfl
  | cons hl => simpa using hl.eq_endOfFile

theorem Respells.isDone {c c' : Cursor} (h : Respells c.rest c'.rest) :
    c'.isDone Marker.updateEnds = c.isDone Marker.updateEnds := by
  obtain ⟨i, ls⟩ := c
  obtain ⟨i', ls'⟩ := c'
  obtain ⟨hlines, -⟩ := h
  cases hlines with
  | nil => rfl
  | cons hl => exact hl.startsWithAny

variable {c c' : Cursor} {rest rest' : List Line}

theorem read_bare (h : c.rest = bareLine :: rest) : read c = (.bare, c.advance 1) := by
  rw [read, h]
  rfl

theorem read_blank {anchor : Text} (h : c.rest = (anchorLead ++ anchor) :: rest) (hne : anchor ≠ []) :
    read c = (.anchored anchor, c.advance 1) := by
  obtain ⟨ch, anchor, rfl⟩ := List.exists_cons_of_ne_nil hne
  rw [read, h]
  simp only [Text.after?_append]

theorem read_unnamed (h : c.rest = anchorLead :: rest) (hrest : rest.head? ≠ some bareLine) :
    read c = (.unnamed, c.advance 1) := by
  rw [read, h]
  exact if_neg hrest

theorem read_pair (h : c.rest = anchorLead :: rest) (hrest : rest.head? = some bareLine) :
    read c = (.bare, c.advance 2) := by
  rw [read, h]
  exact if_pos hrest

theorem read_absent (h : c.rest = l :: rest) (hlead : Text.after? anchorLead l = none)
    (hl : l ≠ bareLine) : read c = (.absent, c.advance 0) := by
  rw [read, h]
  simp only [hlead, if_neg hl]
  rfl

/-- The bare header at the first cursor has a single blank at the second. -/
def Narrowed (c c' : Cursor) : Prop :=
  c.rest.head? = some bareLine ∧ c'.rest.head? = some anchorLead ∧ (read c).2 = c.advance 1

/-- The headers at two cursors pass as many lines, ask for the same move and are admitted alike, but for
one that has a single blank at the second cursor only. -/
structure Alike (c c' : Cursor) (n : Nat) : Prop where
  passes : (read c).2 = c.advance n
  passes' : (read c').2 = c'.advance n
  jump : ∀ doc cursor, (read c').1.jump? doc cursor = (read c).1.jump? doc cursor
  admits_back : ∀ cursor, (read c').1.admits cursor = true → (read c).1.admits cursor = true
  admits : ∀ cursor, (read c).1.admits cursor = true → (Narrowed c c' → cursor = 0) →
    (read c').1.admits cursor = true

theorem Alike.of_eq {o : Opening} {n : Nat} (h : read c = (o, c.advance n))
    (h' : read c' = (o, c'.advance n)) : Alike c c' n := by
  refine ⟨by rw [h], by rw [h'], fun _ _ => by rw [h, h'], fun cursor hadm => ?_,
    fun cursor hadm _ => ?_⟩
  · rw [h'] at hadm
    rwa [h]
  · rw [h] at hadm
    rwa [h']

theorem Respells.alike_of_respelt {anchor : Text} (h : Respells c.rest c'.rest)
    (hc : c.rest = bareLine :: rest) (hc' : c'.rest = (anchorLead ++ anchor) :: rest')
    (hanchor : anchor.trim = []) : Alike c c' 1 := by
  have hbare := read_bare hc
  by_cases hne : anchor = []
  · subst hne
    replace hc' : c'.rest = anchorLead :: rest' := hc'
    rw [hc, hc'] at h
    have hrest' : rest'.head? ≠ some bareLine :=
      fun hhead => absurd (h.cons_inv.2.2 ⟨rfl, hhead⟩).1 (by decide)
    have hunnamed := read_unnamed hc' hrest'
    have hnarrowed : Narrowed c c' := ⟨by rw [hc]; rfl, by rw [hc']; rfl, by rw [hbare]⟩
    refine ⟨by rw [hbare], by rw [hunnamed], fun _ _ => ?_, fun _ _ => ?_, fun cursor _ hzero => ?_⟩
    · rw [hbare, hunnamed]
      rfl
    · rw [hbare]
      rfl
    · rw [hunnamed, hzero hnarrowed]
      rfl
  · have hblank := read_blank hc' hne
    refine ⟨by rw [hbare], by rw [hblank], fun _ _ => ?_, fun _ _ => ?_, fun _ _ _ => ?_⟩
    · rw [hbare, hblank]
      exact if_pos hanchor
    · rw [hbare]
      rfl
    · rw [hblank]
      rfl

theorem Respells.alike_of_eq (h : Respells c.rest c'.rest) (hc : c.rest = l :: rest)
    (hc' : c'.rest = l :: rest') : ∃ n, Alike c c' n := by
  cases hlead : Text.after? anchorLead l with
  | none =>
    by_cases hl : l = bareLine
    · subst hl
      exact ⟨1, .of_eq (read_bare hc) (read_bare hc')⟩
    · exact ⟨0, .of_eq (read_absent hc hlead hl) (read_absent hc' hlead hl)⟩
  | some anchor =>
    obtain rfl := Text.after?_eq_some.1 hlead
    by_cases hne : anchor = []
    · subst hne
      rw [List.append_nil] at hc hc'
      rw [hc, hc'] at h
      have hpair : rest.head? = some bareLine ↔ rest'.head? = some bareLine := by
        simpa using h.cons_inv.2
      by_cases hrest : rest.head? = some bareLine
      · exact ⟨2, .of_eq (read_pair hc hrest) (read_pair hc' (hpair.1 hrest))⟩
      · exact ⟨1, .of_eq (read_unnamed hc hrest) (read_unnamed hc' (mt hpair.2 hrest))⟩
    · exact ⟨1, .of_eq (read_blank hc hne) (read_blank hc' hne)⟩

theorem Respells.alike (h : Respells c.rest c'.rest) : ∃ n, Alike c c' n := by
  cases hc : c.rest with
  | nil =>
    rw [hc] at h
    have hc' : c'.rest = [] := List.forall₂_nil_left_iff.1 h.lines
    exact ⟨0, .of_eq (by rw [read, hc]; rfl) (by rw [read, hc']; rfl)⟩
  | cons l rest =>
    have hlines := h.lines
    rw [hc] at hlines
    obtain ⟨l', rest', hl, -, hc'⟩ := List.forall₂_cons_left_iff.1 hlines
    rcases hl with rfl | ⟨rfl, anchor, hanchor, rfl⟩
    · exact h.alike_of_eq hc hc'
    · exact ⟨1, h.alike_of_respelt hc hc' hanchor⟩

end Opening

namespace Section

theorem behind_eq_drop (ls : List Line) : behind ls = ls.drop (bodyOf ls).length := by
  have hdrop : (bodyOf ls ++ behind ls).drop (bodyOf ls).length = behind ls := List.drop_left
  rwa [bodyOf_append_behind, eq_comm] at hdrop

/-- Lines that a section is read from in the same way: the body is the same, and the mark behind it. -/
def SameBody (ls ls' : List Line) : Prop :=
  bodyOf ls' = bodyOf ls ∧
    ((behind ls').head? = some Marker.endOfFile ↔ (behind ls).head? = some Marker.endOfFile)

variable {c c' next : Cursor} {s : Section} {ls ls' : List Line}

theorem SameBody.symm (h : SameBody ls ls') : SameBody ls' ls := ⟨h.1.symm, h.2.symm⟩

theorem SameBody.of_respells (h : Opening.Respells ls ls') : SameBody ls ls' := by
  have hbody := h.bodyOf
  refine ⟨hbody, ?_⟩
  rw [behind_eq_drop, behind_eq_drop, hbody]
  exact (h.drop _).head?_eq_endOfFile

theorem next_eq_advance (h : read c = .ok (s, next)) :
    next = c.advance ((bodyOf c.rest).length + s.eof.toNat) := by
  obtain ⟨-, -, -, rfl⟩ := read_eq_ok.1 h
  rw [Cursor.advance, behind_eq_drop, List.drop_drop, Nat.add_assoc]

theorem SameBody.read_eq_ok (h : SameBody c.rest c'.rest) (hread : read c = .ok (s, next)) :
    read c' = .ok (s, c'.advance ((bodyOf c.rest).length + s.eof.toNat)) := by
  obtain ⟨hspells, hmark, hne, -⟩ := Section.read_eq_ok.1 hread
  obtain ⟨hbody, hhead⟩ := h
  refine Section.read_eq_ok.2 ⟨hbody.symm ▸ hspells, hmark.trans hhead.symm, hbody.symm ▸ hne, ?_⟩
  rw [Cursor.advance, behind_eq_drop, List.drop_drop, hbody, Nat.add_assoc]

end Section

namespace Hunk

variable {doc : List Line} {cursor n : Nat} {c c' next next' : Cursor} {h h' : Hunk}

theorem ReadAt.transfer (hh : ReadAt doc cursor c next h)
    (hdone : c'.isDone Marker.updateEnds = c.isDone Marker.updateEnds)
    (hadm : (Opening.read c').1.admits cursor = true)
    (hjump : (Opening.read c').1.jump? doc cursor = (Opening.read c).1.jump? doc cursor)
    (hbody : Section.read (Opening.read c').2 = .ok (h.body, next')) :
    ReadAt doc cursor c' next'
      { h with opening := (Opening.read c').1, start := (Opening.read c').2.index } where
  live := hdone.trans hh.live
  opening := rfl
  admitted := hadm
  jump := by rw [hjump, hh.jump, hh.opening]
  start := rfl
  body := hbody
  place := hh.place

/-- Respelling leaves a hunk as it is, unless its header has a single blank then where the document is
passed. -/
theorem ReadAt.respells (hh : ReadAt doc cursor c next h) (hc : Opening.Respells c.rest c'.rest)
    (hzero : Opening.Narrowed c c' → cursor = 0) :
    ∃ m o i, next = c.advance m ∧
      ReadAt doc cursor c' (c'.advance m) { h with opening := o, start := i } := by
  obtain ⟨n, halike⟩ := hc.alike
  have hsame : Section.SameBody (Opening.read c).2.rest (Opening.read c').2.rest := by
    rw [halike.passes, halike.passes']
    exact .of_respells (hc.drop n)
  have hadm := halike.admits cursor (hh.opening ▸ hh.admitted) hzero
  have hnext := Section.next_eq_advance hh.body
  have hread := hh.transfer hc.isDone hadm (halike.jump doc cursor) (hsame.read_eq_ok hh.body)
  rw [halike.passes, Cursor.advance_advance] at hnext
  rw [halike.passes', Cursor.advance_advance] at hread
  rw [halike.passes] at hread
  exact ⟨_, _, _, hnext, hread⟩

theorem ReadAt.of_respells (hh : ReadAt doc cursor c' next' h) (hc : Opening.Respells c.rest c'.rest) :
    ∃ next h, ReadAt doc cursor c next h := by
  obtain ⟨n, halike⟩ := hc.alike
  have hsame : Section.SameBody (Opening.read c').2.rest (Opening.read c).2.rest := by
    rw [halike.passes, halike.passes']
    exact (Section.SameBody.of_respells (hc.drop n)).symm
  have hadm := halike.admits_back cursor (hh.opening ▸ hh.admitted)
  exact ⟨_, _, hh.transfer hc.isDone.symm hadm (halike.jump doc cursor).symm (hsame.read_eq_ok hh.body)⟩

end Hunk

namespace Reading

variable {ls ls' : List Line}

def NarrowedAt (ls ls' : List Line) (h : Hunk) : Prop :=
  ls[h.start - 1]? = some Opening.bareLine ∧ ls'[h.start - 1]? = some Opening.anchorLead

instance (ls ls' : List Line) (h : Hunk) : Decidable (NarrowedAt ls ls' h) :=
  inferInstanceAs (Decidable (_ ∧ _))

theorem narrowedAt_of_narrowed {doc : List Line} {cursor k : Nat} {next : Cursor} {h : Hunk}
    (hh : Hunk.ReadAt doc cursor ⟨k, ls.drop k⟩ next h)
    (hn : Opening.Narrowed ⟨k, ls.drop k⟩ ⟨k, ls'.drop k⟩) : NarrowedAt ls ls' h := by
  obtain ⟨hbare, hlead, hpasses⟩ := hn
  have hstart : h.start - 1 = k := by rw [hh.start, hpasses]; rfl
  rw [List.head?_drop] at hbare hlead
  exact ⟨hstart.symm ▸ hbare, hstart.symm ▸ hlead⟩

/-- Respelling leaves the result of a reading as it is, if a header gets a single blank only where the
document is not passed. -/
theorem result_respells (hres : Opening.Respells ls ls') (doc : List Line) (cursor k : Nat)
    (hfirst : ∀ h ∈ (read doc cursor ⟨k, ls.drop k⟩).hunks.head?, NarrowedAt ls ls' h → cursor = 0)
    (hlater : (read doc cursor ⟨k, ls.drop k⟩).hunks.IsChain fun p h =>
      NarrowedAt ls ls' h → p.finish = 0) :
    (read doc cursor ⟨k, ls'.drop k⟩).result.toOption =
      (read doc cursor ⟨k, ls.drop k⟩).result.toOption := by
  induction hlen : (ls.drop k).length using Nat.strong_induction_on generalizing cursor k with
  | h len ih =>
    have hdrop : Opening.Respells (ls.drop k) (ls'.drop k) := hres.drop k
    obtain ⟨hdone, hread⟩ | ⟨next, h, hh, hread⟩ | ⟨hlive, hnone, herror⟩ :=
      read_cases doc cursor ⟨k, ls.drop k⟩
    · have hdone' : Cursor.isDone ⟨k, ls'.drop k⟩ Marker.updateEnds = true := hdrop.isDone.trans hdone
      rw [hread, read, if_pos hdone']
    · rw [hread] at hfirst hlater ⊢
      obtain ⟨hnext, hlater⟩ := List.isChain_cons.1 hlater
      obtain ⟨m, o, i, rfl, hh'⟩ := hh.respells hdrop fun hn =>
        hfirst h rfl (narrowedAt_of_narrowed hh hn)
      have hshorter : ((ls.drop k).drop m).length < len := by
        rw [← hlen]
        exact Nat.lt_of_lt_of_le (Section.length_of_read hh.body) (Opening.length_read_le _)
      simp only [Cursor.advance, List.drop_drop] at hh' hnext hlater hshorter ⊢
      rw [hh'.read_eq, result_hunk, result_hunk, ← ih _ hshorter h.finish (k + m) hnext hlater rfl]
      rfl
    · obtain ⟨hdone', -⟩ | ⟨next', h', hh', -⟩ | ⟨-, -, herror'⟩ := read_cases doc cursor ⟨k, ls'.drop k⟩
      · exact absurd (hlive.symm.trans (hdrop.isDone.symm.trans hdone')) Bool.false_ne_true
      · obtain ⟨next, h, hh⟩ := hh'.of_respells (c := ⟨k, ls.drop k⟩) hdrop
        exact absurd hh (hnone next h)
      · rw [result_of_error _ herror, result_of_error _ herror']

end Reading

namespace Patched

theorem outcome_of_result (doc body : Text) :
    (update doc body).outcome.toOption =
      (Reading.ofLines (patchLines body) doc.lines).result.toOption.bind fun (chunks, fuzz) =>
        ((Chunk.apply chunks doc).map (·, fuzz)).toOption := by
  unfold update
  dsimp only
  split
  · next e he => rw [he]; rfl
  · next chunks fuzz hok => rw [hok]; rfl

/-- A bare header may have blanks behind its signs: that changes neither whether an update succeeds nor
what it makes of a document. There may be a single blank, though, only in front of a section before which
no line of the document is passed, and none in front of another bare header. -/
theorem update_respells (doc body body' : Text)
    (hlines : List.Forall₂ Opening.Respelt (patchLines body) (patchLines body'))
    (hpairs : ∀ i, Opening.Paired (patchLines body) i ↔ Opening.Paired (patchLines body') i)
    (hone : (Reading.ofLines (patchLines body) doc.lines).hunks.IsChain fun p h =>
      Reading.NarrowedAt (patchLines body) (patchLines body') h → p.finish = 0) :
    (update doc body').outcome.toOption = (update doc body).outcome.toOption := by
  have hres : Opening.Respells (patchLines body) (patchLines body') := ⟨hlines, hpairs⟩
  have hlater : (Reading.ofLines (patchLines body) doc.lines).hunks.IsChain fun p h =>
      Reading.NarrowedAt (patchLines body ++ [Marker.endPatch]) (patchLines body' ++ [Marker.endPatch]) h →
        p.finish = 0 := by
    refine hone.imp fun p h hzero hn => hzero ?_
    exact ⟨(Opening.getElem?_concat _ _ (by decide)).1 hn.1,
      (Opening.getElem?_concat _ _ (by decide)).1 hn.2⟩
  have hresult : (Reading.ofLines (patchLines body') doc.lines).result.toOption =
      (Reading.ofLines (patchLines body) doc.lines).result.toOption :=
    Reading.result_respells hres.concat doc.lines 0 0 (fun _ _ _ => rfl) hlater
  rw [outcome_of_result, outcome_of_result, hresult]

theorem update_respells_widened :
    let doc := "a\nb\nc".toList
    let body := "@@\n-a\n+x\n@@\n-b\n+y".toList
    let body' := "@@ \n-a\n+x\n@@  \n-b\n+y".toList
    List.Forall₂ Opening.Respelt (patchLines body) (patchLines body') ∧
      (∀ i, Opening.Paired (patchLines body) i ↔ Opening.Paired (patchLines body') i) ∧
      ((Reading.ofLines (patchLines body) (Text.lines doc)).hunks.IsChain fun p h =>
        Reading.NarrowedAt (patchLines body) (patchLines body') h → p.finish = 0) ∧
      (update doc body').outcome.toOption = some ("x\ny\nc".toList, 0) := by
  intro doc body body'
  have hls : patchLines body = ["@@".toList, "-a".toList, "+x".toList, "@@".toList, "-b".toList,
    "+y".toList] := by decide +kernel
  have hls' : patchLines body' = ["@@ ".toList, "-a".toList, "+x".toList, "@@  ".toList, "-b".toList,
    "+y".toList] := by decide +kernel
  have hlines : List.Forall₂ Opening.Respelt (patchLines body) (patchLines body') := by
    rw [hls, hls']
    exact .cons (.inr ⟨rfl, [], rfl, rfl⟩) (.cons (.inl rfl) (.cons (.inl rfl)
      (.cons (.inr ⟨rfl, [' '], by decide, rfl⟩) (.cons (.inl rfl) (.cons (.inl rfl) .nil)))))
  have hpairs : ∀ i, Opening.Paired (patchLines body) i ↔ Opening.Paired (patchLines body') i := by
    rw [hls, hls']
    exact fun i => iff_of_false (fun h => absurd (List.mem_of_getElem? h.1) (by decide))
      fun h => absurd (List.mem_of_getElem? h.2) (by decide)
  have hone : (Reading.ofLines (patchLines body) (Text.lines doc)).hunks.IsChain fun p h =>
      Reading.NarrowedAt (patchLines body) (patchLines body') h → p.finish = 0 := by decide +kernel
  have hsame := update_respells doc body body' hlines hpairs hone
  have hok : (update doc body).outcome.toOption = some ("x\ny\nc".toList, 0) := by decide +kernel
  exact ⟨hlines, hpairs, hone, hsame.trans hok⟩

/-- Where the document is passed, a single blank behind the signs makes a header one line too many: the
section is refused as if it had none. -/
theorem not_update_respells :
    ¬∀ doc body body' : Text,
      List.Forall₂ (fun l l' => l' = l ∨
        l = Opening.bareLine ∧ ∃ n, l' = Opening.bareLine ++ List.replicate (n + 1) ' ')
        (patchLines body) (patchLines body') →
      (∀ i, (patchLines body)[i]? ≠ (patchLines body')[i]? →
        ∃ h ∈ (Reading.ofLines (patchLines body) doc.lines).hunks, h.opening = .bare ∧ h.start = i + 1) →
      (update doc body').outcome.toOption = (update doc body).outcome.toOption := by
  intro h
  let doc := "a\nb".toList
  let body := "@@\n-a\n+x\n@@\n-b\n+y".toList
  let body' := "@@\n-a\n+x\n@@ \n-b\n+y".toList
  have hls : patchLines body = ["@@".toList, "-a".toList, "+x".toList, "@@".toList, "-b".toList,
    "+y".toList] := by decide +kernel
  have hls' : patchLines body' = ["@@".toList, "-a".toList, "+x".toList, "@@ ".toList, "-b".toList,
    "+y".toList] := by decide +kernel
  have hopens : ∃ h ∈ (Reading.ofLines (patchLines body) (Text.lines doc)).hunks,
      h.opening = .bare ∧ h.start = 3 + 1 := by decide +kernel
  have hsame := h doc body body' ?_ ?_
  · revert hsame
    decide +kernel
  · rw [hls, hls']
    exact .cons (.inl rfl) (.cons (.inl rfl) (.cons (.inl rfl)
      (.cons (.inr ⟨rfl, 0, rfl⟩) (.cons (.inl rfl) (.cons (.inl rfl) .nil)))))
  · intro i hne
    rw [hls, hls'] at hne
    match i with
    | 3 => exact hopens
    | 0 | 1 | 2 | 4 | 5 => exact absurd rfl hne
    | i + 6 => exact absurd rfl hne

end Patched

end Emend
