import Emend.Patch.Document
import Emend.Proofs.Patch.Placement
import Emend.Proofs.Patch.Splice

namespace Emend

namespace Hunk

def searchStart (cursor : Nat) (h : Hunk) : Nat := (h.jump.map Jump.target).getD cursor

/-- The hunk is what is read at `c` when the document before line `cursor` is passed, and `next` is
where the reading goes on. -/
structure ReadAt (doc : List Line) (cursor : Nat) (c next : Cursor) (h : Hunk) : Prop where
  live : c.isDone Marker.updateEnds = false
  opening : h.opening = (Opening.read c).1
  admitted : h.opening.admits cursor = true
  jump : h.jump = h.opening.jump? doc cursor
  start : h.start = (Opening.read c).2.index
  body : Section.read (Opening.read c).2 = .ok (h.body, next)
  place : Placement.find doc h.body.context (h.searchStart cursor) h.body.eof =
    ⟨some h.position, h.fuzz⟩

end Hunk

/-- The readings of an update from `c` on, one hunk after another. -/
inductive Reading.Reads (doc : List Line) : Nat → Cursor → Reading → Prop
  | finished {cursor c} (h : c.isDone Marker.updateEnds = true) : Reads doc cursor c .finished
  | failed {cursor c} (j e) : Reads doc cursor c (.failed j e)
  | hunk {cursor c next h rest} (hh : Hunk.ReadAt doc cursor c next h)
      (hr : Reads doc h.finish next rest) : Reads doc cursor c (.hunk h rest)

theorem Reading.reads (doc : List Line) (cursor : Nat) (c : Cursor) :
    Reads doc cursor c (read doc cursor c) := by
  fun_induction read doc cursor c with
  | case1 cursor c hdone => exact .finished hdone
  | case2 => exact .failed _ _
  | case3 => exact .failed _ _
  | case4 cursor c hlive opening body hadm jump start s next hbody place i hplace ih =>
    refine .hunk ⟨Bool.eq_false_iff.2 hlive, rfl, hadm, rfl, rfl, hbody, ?_⟩ ih
    show place = ⟨some i, place.fuzz⟩
    rw [← hplace]
  | case5 => exact .failed _ _

namespace Hunk

variable {doc : List Line} {cursor : Nat} {c next : Cursor} {h : Hunk}

theorem ReadAt.searchStart_bounds (hh : ReadAt doc cursor c next h) (hc : cursor ≤ doc.length) :
    cursor ≤ h.searchStart cursor ∧ h.searchStart cursor ≤ doc.length := by
  have hstay : cursor ≤ cursor ∧ cursor ≤ doc.length := ⟨Nat.le_refl _, hc⟩
  rw [searchStart, hh.jump]
  cases h.opening with
  | anchored anchor =>
    unfold Opening.jump?
    dsimp only
    split
    · exact hstay
    · exact Jump.seek_bounds anchor hc
  | absent => exact hstay
  | unnamed => exact hstay
  | bare => exact hstay

/-- The section's context agrees with the document where the hunk stands, under the tier whose
penalty the hunk is charged with. -/
def Located (doc : List Line) (h : Hunk) : Prop :=
  ∃ tier : Tier, Placement.Charged tier h.body.eof h.fuzz ∧
    tier.Matches doc h.body.context h.position

theorem ReadAt.located (hh : ReadAt doc cursor c next h) (hc : cursor ≤ doc.length) :
    h.Located doc := by
  obtain ⟨-, hs⟩ := hh.searchStart_bounds hc
  obtain ⟨tier, hf, hm, -⟩ := Placement.find_eq_some hh.place hs
  exact ⟨tier, hf, hm⟩

theorem ReadAt.le_position (hh : ReadAt doc cursor c next h) (hc : cursor ≤ doc.length)
    (he : h.body.eof = false) : cursor ≤ h.position := by
  obtain ⟨hle, hs⟩ := hh.searchStart_bounds hc
  obtain ⟨_, -, -, hp⟩ := Placement.find_eq_some hh.place hs
  exact Nat.le_trans hle (hp he)

theorem Located.finish_le (hl : h.Located doc) : h.finish ≤ doc.length := by
  obtain ⟨_, -, hm⟩ := hl
  exact hm.1

theorem chunks_eq (h : Hunk) : h.chunks = Step.chunksAt h.position h.body.steps := by
  have hadd := Step.chunksAt_add 0 h.position h.body.steps
  rw [Nat.zero_add] at hadd
  exact hadd.symm

theorem chunks_inside {ch : Chunk} (hch : ch ∈ h.chunks) : ch.Inside h.position h.finish := by
  rw [chunks_eq] at hch
  have := Step.chunksAt_inside hch
  simpa [finish, Section.context] using this

theorem chunks_pairwise (h : Hunk) : h.chunks.Pairwise fun a b => a.stop ≤ b.index := by
  rw [chunks_eq]
  exact (Step.chunksAt_pairwise _ _).imp fun hlt => Int.le_of_lt hlt

end Hunk

namespace Reading

variable {doc : List Line} {cursor : Nat} {c : Cursor} {r : Reading}

theorem Reads.located (hr : Reads doc cursor c r) (hc : cursor ≤ doc.length) :
    ∀ h ∈ r.hunks, h.Located doc := by
  induction hr with
  | finished => nofun
  | failed => nofun
  | hunk hh hr ih =>
    have hl := hh.located hc
    intro h hmem
    rcases List.mem_cons.1 hmem with rfl | hmem
    · exact hl
    · exact ih hl.finish_le h hmem

/-- Hunks that do not have to end the document follow one another in it. -/
theorem Reads.in_order (hr : Reads doc cursor c r) (hc : cursor ≤ doc.length)
    (he : ∀ h ∈ r.hunks, h.body.eof = false) :
    (∀ h ∈ r.hunks, cursor ≤ h.position) ∧ r.hunks.Pairwise fun a b => a.finish ≤ b.position := by
  induction hr with
  | finished => exact ⟨nofun, .nil⟩
  | failed => exact ⟨nofun, .nil⟩
  | @hunk cursor c next h rest hh hr ih =>
    have hpos := hh.le_position hc (he h List.mem_cons_self)
    obtain ⟨hrest, hpw⟩ := ih (hh.located hc).finish_le fun h' h'mem =>
      he h' (List.mem_cons_of_mem _ h'mem)
    refine ⟨fun h' hmem => ?_, List.pairwise_cons.2 ⟨hrest, hpw⟩⟩
    rcases List.mem_cons.1 hmem with rfl | hmem
    · exact hpos
    · have := hrest h' hmem
      unfold Hunk.finish at this
      omega

theorem Reads.in_order_of_tail (hr : Reads doc cursor c r) (hc : cursor ≤ doc.length)
    (he : ∀ h ∈ r.hunks.tail, h.body.eof = false) :
    r.hunks.Pairwise fun a b => a.finish ≤ b.position := by
  cases hr with
  | finished => exact .nil
  | failed => exact .nil
  | hunk hh hr =>
    -- Where the first hunk stands does not matter: no chunk comes before it.
    obtain ⟨hrest, hpw⟩ := hr.in_order (hh.located hc).finish_le he
    exact List.pairwise_cons.2 ⟨hrest, hpw⟩

theorem Reads.chunks_inside (hr : Reads doc cursor c r) (hc : cursor ≤ doc.length) {ch : Chunk}
    (hch : ch ∈ r.chunks) : ch.Inside 0 doc.length := by
  obtain ⟨h, hmem, hch⟩ := List.mem_flatMap.1 hch
  have hf := (hr.located hc h hmem).finish_le
  exact (Hunk.chunks_inside hch).mono (by omega) (by omega)

theorem Reads.chunks_pairwise (hr : Reads doc cursor c r) (hc : cursor ≤ doc.length)
    (he : ∀ h ∈ r.hunks.tail, h.body.eof = false) :
    r.chunks.Pairwise fun a b => a.stop ≤ b.index := by
  refine List.pairwise_flatMap.2 ⟨fun h _ => h.chunks_pairwise, ?_⟩
  refine (hr.in_order_of_tail hc he).imp fun hle a ha b hb => ?_
  have hstop := (Hunk.chunks_inside ha).2
  have hindex := (Hunk.chunks_inside hb).1
  omega

theorem reads_ofLines (ls : List Line) (doc : List Line) :
    Reads doc 0 (Cursor.ofLines (ls ++ [Marker.endPatch])) (ofLines ls doc) :=
  reads doc 0 _

end Reading

namespace Patched

theorem outcome_update_of_error {doc body : Text} {e : PatchError}
    (h : (Reading.ofLines (patchLines body) doc.lines).error? = some e) :
    (update doc body).outcome = .error e := by
  simp only [update, Reading.result, h]

theorem outcome_update {doc body : Text}
    (h : (Reading.ofLines (patchLines body) doc.lines).error? = none) :
    (update doc body).outcome =
      (Chunk.apply (Reading.ofLines (patchLines body) doc.lines).chunks doc).map
        (·, (Reading.ofLines (patchLines body) doc.lines).fuzz) := by
  simp only [update, Reading.result, h]

theorem error?_eq_none {doc body : Text} {r : Text × Nat} (h : (update doc body).outcome = .ok r) :
    (Reading.ofLines (patchLines body) doc.lines).error? = none := by
  cases he : (Reading.ofLines (patchLines body) doc.lines).error? with
  | none => rfl
  | some e =>
    rw [outcome_update_of_error he] at h
    cases h

/-- The chunks of an update that was read to its end lie inside the document. Unless a section after
the first has to end the document, they stand in its order and are all made. -/
theorem chunks_fit (doc body : Text)
    (h : (Reading.ofLines (patchLines body) doc.lines).error? = none) :
    let reading := Reading.ofLines (patchLines body) doc.lines
    (∀ ch ∈ reading.chunks, 0 ≤ ch.index ∧ ch.index + ch.deleted.length ≤ doc.lines.length) ∧
      (∀ index length, (update doc body).outcome ≠ .error (.outOfRange index length)) ∧
      ((∀ hunk ∈ reading.hunks.tail, hunk.body.eof = false) →
        reading.chunks.Pairwise (fun a b : Chunk => a.index + a.deleted.length ≤ b.index) ∧
          ∃ t, (update doc body).outcome = .ok (t, reading.fuzz)) := by
  intro reading
  have hreads := Reading.reads_ofLines (patchLines body) doc.lines
  have hinside : ∀ ch ∈ reading.chunks, ch.Inside 0 doc.lines.length :=
    fun ch hch => hreads.chunks_inside (Nat.zero_le _) hch
  refine ⟨hinside, ?_, ?_⟩
  · intro index length
    have hsplice : Chunk.splice doc.lines reading.chunks ≠ .error (.outOfRange index length) := by
      refine Chunk.spliceFrom_ne_outOfRange (fun ch hch => ?_) index length
      have := (hinside ch hch).2
      unfold Chunk.stop at this
      omega
    rw [outcome_update h, Chunk.apply, Ne, Except.map_eq_error, Except.map_eq_error]
    exact hsplice
  · intro he
    have hpair := hreads.chunks_pairwise (Nat.zero_le _) he
    refine ⟨hpair, ?_⟩
    obtain ⟨lines, hlines⟩ := Chunk.exists_spliceFrom_eq_ok doc.lines hinside hpair
    refine ⟨Text.ofLines lines, ?_⟩
    rw [outcome_update h, Chunk.apply, Chunk.splice, hlines]
    rfl

theorem chunks_fit_two_sections :
    let doc := "a\nb\nc".toList
    let body := "@@\n a\n-b\n+x\n@@\n-c".toList
    let reading := Reading.ofLines (patchLines body) (Text.lines doc)
    reading.error? = none ∧ (∀ hunk ∈ reading.hunks.tail, hunk.body.eof = false) ∧
      reading.chunks.length = 2 ∧
      reading.chunks.Pairwise (fun a b : Chunk => a.index + a.deleted.length ≤ b.index) ∧
      ∃ t, (update doc body).outcome = .ok (t, reading.fuzz) := by
  intro doc body reading
  have hread : reading.error? = none := by decide +kernel
  have heof : ∀ hunk ∈ reading.hunks.tail, hunk.body.eof = false := by decide +kernel
  obtain ⟨-, -, hfit⟩ := chunks_fit doc body hread
  exact ⟨hread, heof, by decide +kernel, hfit heof⟩

end Patched

end Emend
