import Emend.Proofs.Patch.Reading

namespace Emend

namespace Step

/-- The lines that the steps delete, as the patch writes them. -/
def deleted (steps : List Step) : List Line := (steps.filter (·.role = .delete)).map content

theorem deletedAt_append (place : Nat) (steps steps' : List Step) :
    deletedAt place (steps ++ steps') =
      deletedAt place steps ++ deletedAt (place + (context steps).length) steps' := by
  induction steps generalizing place with
  | nil => rfl
  | cons s steps ih =>
    obtain ⟨role, c⟩ := s
    cases role with
    | keep =>
      have hrest := ih (place + 1)
      rwa [Nat.add_right_comm, Nat.add_assoc place] at hrest
    | insert => exact ih place
    | delete =>
      have hrest := congrArg (place :: ·) (ih (place + 1))
      rwa [Nat.add_right_comm, Nat.add_assoc place] at hrest

def all (role : Role) (ls : List Line) : List Step := ls.map (⟨role, ·⟩)

section Uniform

variable (role : Role) (ls : List Line)

@[simp] theorem context_all : context (all role ls) = if role = .insert then [] else ls := by
  cases role <;> simp [context, all, List.filter_map, Function.comp_def]

@[simp] theorem outcome_all : outcome (all role ls) = if role = .delete then [] else ls := by
  cases role <;> simp [outcome, all, List.filter_map, Function.comp_def]

@[simp] theorem inserted_all : inserted (all role ls) = if role = .insert then ls else [] := by
  cases role <;> simp [inserted, all, List.filter_map, Function.comp_def]

@[simp] theorem deletedAt_all (place : Nat) : deletedAt place (all role ls) =
    if role = .delete then List.range' place ls.length else [] := by
  induction ls generalizing place with
  | nil => cases role <;> rfl
  | cons l ls ih =>
    cases role with
    | keep => exact ih (place + 1)
    | insert => exact ih place
    | delete => exact congrArg (place :: ·) (ih (place + 1))

end Uniform

end Step

namespace Chunk

def places (ch : Chunk) : List Nat := List.range' ch.index.toNat ch.deleted.length

theorem exists_script {length cursor : Nat} {rest result : List Line} {chunks : List Chunk}
    (hlen : cursor + rest.length = length) (hin : ∀ ch ∈ chunks, ch.stop ≤ length)
    (h : spliceFrom length cursor rest chunks = .ok result) :
    ∃ script, Step.outcome script = result ∧ Step.context script = rest ∧
      Step.inserted script = chunks.flatMap inserted ∧
      Step.deletedAt cursor script = chunks.flatMap places := by
  induction chunks generalizing cursor rest result with
  | nil =>
    cases h
    exact ⟨Step.all .keep rest, by simp, by simp, by simp, by simp⟩
  | cons ch chunks ih =>
    have hstop := hin ch List.mem_cons_self
    unfold stop at hstop
    obtain ⟨hlow, -, tail, htail, rfl⟩ := spliceFrom_cons_eq_ok.1 h
    obtain ⟨script, ho, hc, hi, hd⟩ :=
      ih (by simp only [List.length_drop]; omega)
        (fun ch' hch' => hin ch' (List.mem_cons_of_mem _ hch')) htail
    -- Before the script of the rest: the lines up to the chunk are kept, its own are deleted and inserted.
    let kept := ch.index.toNat - cursor
    have hkept : (rest.take kept).length = kept := List.length_take_of_le (by omega)
    have hgone : ((rest.drop kept).take ch.deleted.length).length = ch.deleted.length :=
      List.length_take_of_le (by simp only [List.length_drop]; omega)
    have hplace : cursor + kept = ch.index.toNat := by omega
    refine ⟨Step.all .keep (rest.take kept) ++ (Step.all .delete ((rest.drop kept).take
      ch.deleted.length) ++ (Step.all .insert ch.inserted ++ script)), ?_, ?_, ?_, ?_⟩
    · simp [ho, kept]
    · simp only [Step.context_append, Step.context_all, hc, reduceCtorEq, if_true, if_false,
        List.nil_append, ← List.drop_drop]
      rw [List.take_append_drop, List.take_append_drop]
    · simp [hi]
    · simp only [Step.deletedAt_append, Step.deletedAt_all, Step.context_all, reduceCtorEq, if_true,
        if_false, List.nil_append, hkept, hgone, hplace, hd, List.length_nil, Nat.add_zero,
        List.flatMap_cons]
      rfl

end Chunk

namespace Run

theorem flatMap_before {α : Type} (f : Chunk → List α) (hf : ∀ i, f ⟨i, [], []⟩ = []) (r : Run)
    (place : Nat) (later : List Chunk) : (r.before place later).flatMap f =
      f ⟨place, r.deleted, r.inserted⟩ ++ later.flatMap f := by
  unfold before
  split
  · next he =>
    simp only [isEmpty, Bool.and_eq_true, List.isEmpty_iff] at he
    rw [he.1, he.2, hf, List.nil_append]
  · rfl

theorem read_places (place : Nat) (steps : List Step) :
    List.range' place (read place steps).1.deleted.length ++
      (read place steps).2.flatMap Chunk.places = Step.deletedAt place steps := by
  induction steps generalizing place with
  | nil => rfl
  | cons s steps ih =>
    obtain ⟨role, c⟩ := s
    cases role with
    | keep =>
      refine (flatMap_before Chunk.places (fun _ => rfl) _ _ _).trans ?_
      exact ih (place + 1)
    | insert => exact ih place
    | delete => exact congrArg (place :: ·) (ih (place + 1))

theorem read_inserted (place : Nat) (steps : List Step) :
    (read place steps).1.inserted ++ (read place steps).2.flatMap Chunk.inserted =
      Step.inserted steps := by
  induction steps generalizing place with
  | nil => rfl
  | cons s steps ih =>
    obtain ⟨role, c⟩ := s
    cases role with
    | keep =>
      refine (flatMap_before Chunk.inserted (fun _ => rfl) _ _ _).trans ?_
      exact ih (place + 1)
    | insert => exact congrArg (c :: ·) (ih place)
    | delete => exact ih (place + 1)

end Run

namespace Step

theorem flatMap_places_chunksAt (place : Nat) (steps : List Step) :
    (chunksAt place steps).flatMap Chunk.places = deletedAt place steps := by
  refine (Run.flatMap_before Chunk.places (fun _ => rfl) _ _ _).trans ?_
  exact Run.read_places place steps

theorem flatMap_inserted_chunksAt (place : Nat) (steps : List Step) :
    (chunksAt place steps).flatMap Chunk.inserted = inserted steps := by
  refine (Run.flatMap_before Chunk.inserted (fun _ => rfl) _ _ _).trans ?_
  exact Run.read_inserted place steps

end Step

theorem Tier.Matches.normal_getElem? {tier : Tier} {doc context : List Line} {i j : Nat}
    (h : tier.Matches doc context i) (hj : j < context.length) :
    doc[i + j]?.map tier.normal = context[j]?.map tier.normal := by
  have hline := congrArg (·[j]?) h.2
  simpa [List.getElem?_take, hj] using hline

theorem Step.normal_deletedAt {tier : Tier} {doc : List Line} {place : Nat} {steps : List Step}
    (h : ∀ j, j < (context steps).length →
      doc[place + j]?.map tier.normal = (context steps)[j]?.map tier.normal) :
    (deletedAt place steps).map (fun i => doc[i]?.map tier.normal) =
      (deleted steps).map fun l => some (tier.normal l) := by
  induction steps generalizing place with
  | nil => rfl
  | cons s steps ih =>
    obtain ⟨role, c⟩ := s
    have hnext (hc : context (⟨role, c⟩ :: steps) = c :: context steps) (j : Nat)
        (hj : j < (context steps).length) :
        doc[place + 1 + j]?.map tier.normal = (context steps)[j]?.map tier.normal := by
      have hline := h (j + 1) (by rw [hc]; exact Nat.succ_lt_succ hj)
      rwa [hc, List.getElem?_cons_succ, Nat.add_comm j, ← Nat.add_assoc] at hline
    cases role with
    | keep => exact ih (hnext rfl)
    | insert => exact ih h
    | delete =>
      have hline := h 0 (Nat.succ_pos _)
      exact congr (congrArg List.cons hline) (ih (hnext rfl))

namespace Patched

/-- A patched document is the outcome of one script of it, which inserts what the hunks insert and
deletes the lines at which they delete. -/
theorem exists_script {doc body t : Text} {fuzz : Nat} (h : (update doc body).outcome = .ok (t, fuzz)) :
    ∃ script : List Step,
      t = Text.ofLines (Step.outcome script) ∧
      Step.context script = doc.lines ∧
      Step.inserted script = (Reading.ofLines (patchLines body) doc.lines).hunks.flatMap
        (fun hunk => Step.inserted hunk.body.steps) ∧
      Step.deletedAt 0 script = (Reading.ofLines (patchLines body) doc.lines).hunks.flatMap
        fun hunk => Step.deletedAt hunk.position hunk.body.steps := by
  have hreads := Reading.reads_ofLines (patchLines body) doc.lines
  rw [outcome_update (error?_eq_none h), Except.map_eq_ok] at h
  obtain ⟨t', ht, he⟩ := h
  cases he
  obtain ⟨lines, hlines, rfl⟩ := Except.map_eq_ok.1 ht
  obtain ⟨script, ho, hc, hi, hd⟩ := Chunk.exists_script (Nat.zero_add _)
    (fun ch hch => (hreads.chunks_inside (Nat.zero_le _) hch).2) hlines
  refine ⟨script, by rw [ho], hc, ?_, ?_⟩
  · rw [hi, Reading.chunks, List.flatMap_assoc]
    simp only [Hunk.chunks_eq, Step.flatMap_inserted_chunksAt]
  · rw [hd, Reading.chunks, List.flatMap_assoc]
    simp only [Hunk.chunks_eq, Step.flatMap_places_chunksAt]

/-- A patched document is the outcome of one script of it. The script inserts what the hunks insert
and deletes the lines at which they delete, in order; all others it keeps. Where a hunk stands, the
document agrees with its context, and so with the lines it deletes, under the tier it is charged. -/
theorem update_accounts (doc body t : Text) (fuzz : Nat)
    (h : (update doc body).outcome = .ok (t, fuzz)) :
    let reading := Reading.ofLines (patchLines body) doc.lines
    reading.error? = none ∧
      (∃ script : List Step,
        t = Text.ofLines (Step.outcome script) ∧
        Step.context script = doc.lines ∧
        Step.inserted script = reading.hunks.flatMap (fun hunk => Step.inserted hunk.body.steps) ∧
        Step.deletedAt 0 script =
          reading.hunks.flatMap fun hunk => Step.deletedAt hunk.position hunk.body.steps) ∧
      ∀ hunk ∈ reading.hunks, ∃ tier : Tier,
        Placement.Charged tier hunk.body.eof hunk.fuzz ∧
        tier.Matches doc.lines hunk.body.context hunk.position ∧
        (Step.deletedAt hunk.position hunk.body.steps).map
            (fun i => doc.lines[i]?.map tier.normal) =
          (Step.deleted hunk.body.steps).map fun l => some (tier.normal l) := by
  intro reading
  have hreads := Reading.reads_ofLines (patchLines body) doc.lines
  refine ⟨error?_eq_none h, exists_script h, fun hunk hmem => ?_⟩
  obtain ⟨tier, hf, hm⟩ := hreads.located (Nat.zero_le _) hunk hmem
  exact ⟨tier, hf, hm, Step.normal_deletedAt fun j hj => hm.normal_getElem? hj⟩

theorem update_accounts_blanks :
    let doc := "a  \nb\nc".toList
    let body := "@@\n a\n-b\n+x\n+y\n c".toList
    (update doc body).outcome = .ok ("a  \nx\ny\nc".toList, 1) ∧
      ∃ script : List Step,
        "a  \nx\ny\nc".toList = Text.ofLines (Step.outcome script) ∧
        Step.context script = Text.lines doc ∧
        Step.inserted script = ["x".toList, "y".toList] ∧ Step.deletedAt 0 script = [1] := by
  intro doc body
  have houtcome : (update doc body).outcome = .ok ("a  \nx\ny\nc".toList, 1) := by decide +kernel
  obtain ⟨-, ⟨script, ho, hc, hi, hd⟩, -⟩ := update_accounts doc body _ _ houtcome
  refine ⟨houtcome, script, ho, hc, hi.trans ?_, hd.trans ?_⟩
  · decide +kernel
  · decide +kernel

end Patched

end Emend
