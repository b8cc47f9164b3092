import Emend.Proofs.Patch.Body
import Emend.Proofs.Patch.Replacement

namespace Emend

namespace Chunk

variable {place : Nat} {context : List Line} {ch : Chunk}

def Edits (ch : Chunk) : Prop := ch.deleted ≠ [] ∨ ch.inserted ≠ []

/-- The chunk deletes a slice of a context that starts at a place. -/
def Slices (place : Nat) (context : List Line) (ch : Chunk) : Prop :=
  ∃ k : Nat, ch.index = (place + k : Nat) ∧ ch.deleted <+: context.drop k

theorem Slices.cons (h : Slices (place + 1) context ch) (l : Line) : Slices place (l :: context) ch := by
  obtain ⟨k, hindex, hdeleted⟩ := h
  exact ⟨k + 1, by rw [hindex, Nat.add_right_comm, Nat.add_assoc], hdeleted⟩

end Chunk

namespace Run

theorem mem_before_edits {r : Run} {place : Nat} {later : List Chunk} {ch : Chunk}
    (h : ch ∈ r.before place later) :
    ch = ⟨place, r.deleted, r.inserted⟩ ∧ ch.Edits ∨ ch ∈ later := by
  unfold before at h
  split at h
  · exact .inr h
  · next hedits =>
    refine (List.mem_cons.1 h).imp_left fun hch => ⟨hch, ?_⟩
    rw [isEmpty, Bool.and_eq_true, List.isEmpty_iff, List.isEmpty_iff, not_and_or] at hedits
    rw [hch]
    exact hedits

/-- What the pending run deletes starts the context of the steps, and each chunk behind it deletes a later
slice. A run that holds no edit is no chunk. -/
theorem read_slices (place : Nat) (steps : List Step) :
    (read place steps).1.deleted <+: Step.context steps ∧
      ∀ ch ∈ (read place steps).2, ch.Edits ∧ ch.Slices place (Step.context steps) := by
  induction steps generalizing place with
  | nil => exact ⟨List.prefix_rfl, nofun⟩
  | cons s steps ih =>
    obtain ⟨role, c⟩ := s
    cases role with
    | keep =>
      obtain ⟨hrun, hlater⟩ := ih (place + 1)
      refine ⟨List.nil_prefix, fun ch hch => ?_⟩
      rw [Step.context_keep]
      obtain ⟨rfl, hedits⟩ | hch := mem_before_edits hch
      · exact ⟨hedits, 1, rfl, hrun⟩
      · exact (hlater ch hch).imp_right fun hslices => hslices.cons c
    | insert => exact ih place
    | delete =>
      obtain ⟨hrun, hlater⟩ := ih (place + 1)
      rw [Step.context_delete]
      refine ⟨(List.prefix_cons_inj c).2 hrun, fun ch hch => ?_⟩
      exact (hlater ch hch).imp_right fun hslices => hslices.cons c

end Run

namespace Step

theorem chunks_slices {steps : List Step} {ch : Chunk} (h : ch ∈ chunks steps) :
    ch.Edits ∧ ch.Slices 0 (context steps) := by
  obtain ⟨hrun, hlater⟩ := Run.read_slices 0 steps
  obtain ⟨rfl, hedits⟩ | hch := Run.mem_before_edits h
  · exact ⟨hedits, 0, rfl, hrun⟩
  · exact hlater ch hch

/-- The chunks of some steps turn their context into their outcome. -/
theorem splice_chunks (steps : List Step) :
    Chunk.splice (context steps) (chunks steps) = .ok (outcome steps) := by
  have hsplice : Chunk.spliceFrom (context steps).length 0 (context steps ++ [])
      (chunksAt 0 steps ++ []) = _ := spliceFrom_chunksAt steps [] (by omega) (by simp)
  rw [List.append_nil, List.append_nil] at hsplice
  refine hsplice.trans ?_
  rw [Chunk.spliceFrom, Except.map, List.append_nil]

end Step

namespace Section

/-- A section that is read from a list of lines is what its body says: its context are the lines of the body
that insert nothing, each chunk edits something and deletes a slice of the context, the next one does not
start right behind it, and all of them turn the context into the lines of the body that delete nothing. The
marker behind the body is read with it. Reading fails exactly if a line of the body states no step, or if
there is neither a body nor the marker. -/
theorem read_faithful (ls : List Line) (start : Nat) :
    let c := (Cursor.ofLines ls).advance start
    let body := bodyOf (ls.drop start)
    let stop := behind (ls.drop start)
    let outcome := (body.filter (·.head? ≠ some '-')).map List.tail
    (∀ s next, read c = .ok (s, next) →
      s.context = (body.filter (·.head? ≠ some '+')).map List.tail ∧
      (∀ ch ∈ s.chunks, (ch.deleted ≠ [] ∨ ch.inserted ≠ []) ∧
        ∃ k : Nat, ch.index = k ∧ (s.context.drop k).take ch.deleted.length = ch.deleted) ∧
      s.chunks.Pairwise (fun a b : Chunk => a.index + a.deleted.length < b.index) ∧
      Chunk.splice s.context s.chunks = .ok outcome ∧
      (s.context ≠ [] → (∀ l ∈ s.context, '\n' ∉ l) →
        Chunk.apply s.chunks (Text.ofLines s.context) = .ok (Text.ofLines outcome)) ∧
      (s.eof = true ↔ stop.head? = some Marker.endOfFile) ∧
      next.index = start + body.length + (if s.eof then 1 else 0) ∧
      next.rest = stop.drop (if s.eof then 1 else 0)) ∧
    ((∃ e, read c = .error e) ↔
      (∃ l ∈ body, Step.Malformed l ∨ ['*', '*', '*'] <+: l) ∨
        body = [] ∧ stop.head? ≠ some Marker.endOfFile) := by
  intro c body stop outcome
  constructor
  · intro s next h
    obtain ⟨hspells, hmark, -, rfl⟩ := read_eq_ok.1 h
    have hspells : Step.Spells s.steps body := hspells
    have houtcome : Step.outcome s.steps = outcome := hspells.contents (by decide : Role.delete ≠ .keep)
    have hsplice : Chunk.splice s.context s.chunks = .ok outcome :=
      houtcome ▸ Step.splice_chunks s.steps
    refine ⟨hspells.contents (by decide : Role.insert ≠ .keep), ?_, ?_, hsplice, ?_, hmark, ?_, ?_⟩
    · intro ch hch
      obtain ⟨hedits, k, hindex, hdeleted⟩ := Step.chunks_slices hch
      exact ⟨hedits, k, by rw [hindex, Nat.zero_add], (List.prefix_iff_eq_take.1 hdeleted).symm⟩
    · exact Step.chunksAt_pairwise 0 s.steps
    · intro hne hlines
      rw [Chunk.apply, Text.lines_ofLines hlines hne, hsplice]
      rfl
    · show 0 + start + body.length + s.eof.toNat = _
      rw [Nat.zero_add]
      cases s.eof <;> rfl
    · show stop.drop s.eof.toNat = _
      cases s.eof <;> rfl
  · have hstars (l : Line) : Step.Malformed l ∨ ['*', '*', '*'] <+: l ↔ Step.Malformed l :=
      or_iff_left_of_imp Step.malformed_of_stars
    simp only [hstars]
    rw [Except.exists_error_iff, exists_ok, not_and_or, Classical.not_imp]
    simp only [not_forall, Classical.not_not, exists_prop]
    rfl

theorem read_faithful_marked :
    let c := (Cursor.ofLines (["@@", " a", "-b", "+x", "", "-c", "*** End of File", "+z"].map
      String.toList)).advance 1
    let steps : List Step := [⟨.keep, ['a']⟩, ⟨.delete, ['b']⟩, ⟨.insert, ['x']⟩, ⟨.keep, []⟩,
      ⟨.delete, ['c']⟩]
    read c = .ok (⟨steps, true⟩, ⟨7, ["+z".toList]⟩) ∧
      Step.context steps = [['a'], ['b'], [], ['c']] ∧
      Chunk.apply (Step.chunks steps) "a\nb\n\nc".toList = .ok "a\nx\n".toList ∧
      ∃ e, read (Cursor.ofLines ["-a".toList, "*** x".toList]) = .error e := by
  intro c steps
  have hread : read c = .ok (⟨steps, true⟩, ⟨7, ["+z".toList]⟩) := by decide +kernel
  obtain ⟨hok, -⟩ := read_faithful
    (["@@", " a", "-b", "+x", "", "-c", "*** End of File", "+z"].map String.toList) 1
  obtain ⟨hcontext, -, -, -, happly, -⟩ := hok _ _ hread
  obtain ⟨-, hfail⟩ := read_faithful ["-a".toList, "*** x".toList] 0
  refine ⟨hread, hcontext.trans (by decide +kernel), ?_, hfail.2 (.inl ⟨"*** x".toList, ?_, ?_⟩)⟩
  · exact (happly (by decide +kernel) (by decide +kernel)).trans (by decide +kernel)
  · decide +kernel
  · exact .inr (by decide +kernel)

end Section

end Emend
