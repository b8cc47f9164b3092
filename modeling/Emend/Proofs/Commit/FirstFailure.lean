import Emend.Proofs.Commit.Abort
import Emend.Proofs.Commit.Success
import Emend.Proofs.Except

namespace Emend

open EStateM FileTree

namespace Pass

variable {σ α β : Type} (path : α → Text) (step : List Text → α → EStateM Failure σ β)

/-- Up to the first failure the two policies do the same, and the pass under the fail-fast policy ends
there. -/
theorem run_failFast (failed : List Text) (items : List α) (s : σ) :
    let whole := run .bestEffort path step failed items s
    let stopped := run .failFast path step failed items s
    (whole.failures = [] → stopped = whole) ∧
      ∀ x rest, whole.failures = x :: rest → stopped.failures = [x] ∧ stopped.abort? = none := by
  induction items generalizing failed s with
  | nil =>
    refine ⟨fun _ => rfl, fun x rest hx => ?_⟩
    cases hx
  | cons a items ih =>
    cases hs : step failed a s with
    | ok b s' =>
      obtain ⟨hsame, hfirst⟩ := ih failed s'
      simp only [run, hs]
      exact ⟨fun hf => by rw [hsame hf], hfirst⟩
    | error e s' =>
      cases he : e.abort? with
      | some b =>
        simp only [run, hs, he]
        refine ⟨fun _ => trivial, fun x rest hx => ?_⟩
        cases hx
      | none =>
        simp only [run, hs, he]
        refine ⟨fun hnone => ?_, fun x rest hx => ⟨?_, trivial⟩⟩
        · cases hnone
        · rw [(List.cons.inj hx).1]

end Pass

/-- The former text of a deleted file cannot be written back, for a null character on its path. -/
def Target.Unrestorable (c : Target) : Prop :=
  c.action = .delete ∧ c.change.former.isSome ∧ Path.hasNull c.dest = true

namespace FileTree

theorem rename_hasNull (t : FileTree) (source target : List Name) :
    (rename source target).Ends t
      (fun _ _ => Path.hasNull source = false ∧ Path.hasNull target = false) (fun _ _ => True) := by
  unfold EStateM.Ends rename
  split
  · next hr =>
    split at hr
    · cases hr
    · next hnull => simpa using hnull
  · trivial

end FileTree

namespace Workspace

variable {w : Workspace} {c : Target} {targets : List Target}

/-- What has been promoted can be undone as far as null characters go: they are at most on the path of a
deleted file, for which then no call was made. -/
structure Undoable (targets : List Target) (w : Workspace) : Prop where
  trash : ∀ x ∈ w.trash, Path.hasNull x.1 = false ∧ Path.hasNull x.2 = false
  promoted : ∀ c ∈ w.promoted, c ∈ targets ∧ (c.action = .delete ∨ Path.hasNull c.dest = false)

namespace Undoable

theorem congr {w' : Workspace} (h : w.Undoable targets) (htrash : w'.trash = w.trash)
    (hpromoted : w'.promoted = w.promoted) : w'.Undoable targets where
  trash := by
    rw [htrash]
    exact h.trash
  promoted := by
    rw [hpromoted]
    exact h.promoted

theorem call {α : Type} (h : w.Undoable targets) (x : Call α) :
    (call x).Ends w (fun _ => Undoable targets) (fun _ => Undoable targets) := by
  rw [ends_call]
  exact (ends_self x w.tree).mono (fun _ _ _ => h.congr rfl rfl) (fun _ _ _ => h.congr rfl rfl)

theorem stage (h : w.Undoable targets) (c : Target) :
    (stage c).Ends w (fun _ => Undoable targets) (fun _ => Undoable targets) := by
  simp only [Workspace.stage, ends_bind, ends_get]
  split
  · exact h
  · split
    · exact h
    · simp only [ends_bind, ends_modify]
      apply (h.call (makeDirs c.dest.parent)).imp_ok
      intro _ w₁ h₁
      apply (h₁.call (makeTemp w.reserved c.dest.parent .staged c.bytes)).imp_ok
      exact fun _ w₂ h₂ => h₂.congr rfl rfl

theorem setAside (h : w.Undoable targets) (dest : Path) :
    (setAside dest).Ends w (fun _ => Undoable targets) (fun _ => Undoable targets) := by
  simp only [Workspace.setAside, ends_bind, ends_get]
  apply (h.call (makeTemp w.reserved dest.parent .setAside .empty)).imp_ok
  intro temp w₁ h₁
  simp only [ends_call, ends_modify]
  apply (rename_hasNull w₁.tree dest temp).mono
  · rintro _ t ⟨hdest, htemp⟩
    refine ⟨fun x hx => ?_, h₁.promoted⟩
    obtain rfl | hx := Ledger.mem_of_mem_set hx
    · exact ⟨hdest, htemp⟩
    · exact h₁.trash x hx
  · exact fun _ t _ => h₁.congr rfl rfl

theorem promoteDelete (h : w.Undoable targets) (c : Target) :
    (promoteDelete c).Ends w (fun _ => Undoable targets) (fun _ => Undoable targets) := by
  simp only [Workspace.promoteDelete, ends_bind, ends_get]
  split
  · split
    · exact h.call (removeFile c.dest)
    · exact h.setAside c.dest
  · exact h

theorem promoteWrite (h : w.Undoable targets) (backup : Option Text) (c : Target) :
    (promoteWrite backup c).Ends w (fun _ w' => w'.Undoable targets ∧ Path.hasNull c.dest = false)
      (fun _ => Undoable targets) := by
  simp only [Workspace.promoteWrite, ends_bind, ends_get]
  split
  · exact h
  · split
    · exact h
    · next temp hs =>
      simp only [ends_bind, ends_set]
      have h : Undoable targets { w with staged := w.staged.remove c.dest } := h.congr rfl rfl
      apply (h.call (Backup.write backup c)).imp_ok
      intro _ w₁ h₁
      rw [ends_call]
      apply (rename_hasNull w₁.tree temp c.dest).mono
      · exact fun _ t hnull => ⟨h₁.congr rfl rfl, hnull.2⟩
      · exact fun _ t _ => h₁.congr rfl rfl

theorem promote (h : w.Undoable targets) (hmem : c ∈ targets) (backup : Option Text)
    (failed : List Text) :
    (promote backup failed c).Ends w (fun _ => Undoable targets) (fun _ => Undoable targets) := by
  have hcount {w : Workspace} (h : w.Undoable targets) (hc : c.action = .delete ∨ Path.hasNull c.dest = false) :
      Undoable targets { w with promoted := w.promoted ++ [c] } :=
    ⟨h.trash, List.forall_mem_append.2 ⟨h.promoted, List.forall_mem_singleton.2 ⟨hmem, hc⟩⟩⟩
  unfold Workspace.promote
  split
  · exact h
  · split
    · next ha =>
      rw [ends_bind]
      exact (h.promoteDelete c).imp_ok fun _ _ h => hcount h (.inl ha)
    · rw [ends_bind]
      exact (h.promoteWrite backup c).imp_ok fun _ _ h => hcount h.1 (.inr h.2)

theorem undo (h : w.Undoable targets) (hc : c.action = .delete ∨ Path.hasNull c.dest = false) :
    (undo c).Ends w (fun _ => Undoable targets)
      (fun e w' => w'.Undoable targets ∧
        ∀ a, e.abort? = some a → a = .nullCharacter ∧ c.Unrestorable) := by
  have hcall {w : Workspace} (h : w.Undoable targets) {x : Call Unit} {names : List Name}
      (hx : x.Ends w.tree (fun _ _ => True) (fun e _ => e.OnlyNull names))
      (hnull : Path.hasNull names = true → c.Unrestorable) :
      (Workspace.call x).Ends w (fun _ => Undoable targets)
        (fun e w' => w'.Undoable targets ∧
          ∀ a, e.abort? = some a → a = .nullCharacter ∧ c.Unrestorable) := by
    rw [ends_call]
    apply hx.mono
    · exact fun _ t _ => h.congr rfl rfl
    · refine fun e t he => ⟨h.congr rfl rfl, fun a ha => ?_⟩
      obtain ⟨rfl, hn⟩ := he a (Failure.call.inj (Failure.abort?_eq_some.1 ha))
      exact ⟨rfl, hnull hn⟩
  simp only [Workspace.undo, ends_bind, ends_get]
  split
  · next ha =>
    split
    · refine hcall h (removeFile_abort w.tree c.dest) fun hn => ?_
      simp [hn, ha] at hc
    · exact h
  · split
    · next temp ht =>
      obtain ⟨hdest, htemp⟩ := h.trash _ (Ledger.mem_of_lookup ht)
      have h : Undoable targets { w with trash := w.trash.remove c.dest } :=
        ⟨fun x hx => h.trash x (Ledger.mem_remove.1 hx).1, h.promoted⟩
      refine hcall h (rename_abort _ temp c.dest) fun hn => ?_
      rw [Path.hasNull_append, htemp, hdest] at hn
      cases hn
    · split
      · next former hformer =>
        refine hcall h (writeFile_abort w.tree c.dest former.encode) fun hn => ?_
        refine ⟨hc.resolve_right (by simp [hn]), by simp [hformer], hn⟩
      · exact h

end Undoable

end Workspace

namespace Commit

variable {t : FileTree} {w : Workspace} {base : RealPath} {options : Options} {backup : Option Text}
  {failures : List (Text × Failure)} {targets : List Target} {changes : List Change} {s : Summary}

/-- The second commit reports the first failure of the first one, unless what is lost cannot be restored.
If the first one reports no failure, the two come to the same. -/
def StopsFirst (lost : Prop) (whole stopped : Committed) : Prop :=
  ∀ s, whole.outcome = .ok s →
    (s.failed = [] → stopped.outcome = .ok s ∧ stopped.tree = whole.tree) ∧
    ∀ p rest, s.failed = p :: rest →
      (∃ s', stopped.outcome = .ok s' ∧ s'.failed = [p]) ∨ stopped.outcome = .error .nullCharacter ∧ lost

namespace StopsFirst

variable {lost lost' : Prop} {whole stopped : Committed} {x : Text × Failure}
  {dry : Bool} {success : List Text}

theorem mono (h : StopsFirst lost whole stopped) (hlost : lost → lost') : StopsFirst lost' whole stopped := by
  intro s hs
  obtain ⟨hsame, hfirst⟩ := h s hs
  exact ⟨hsame, fun p rest hf => (hfirst p rest hf).imp_right (And.imp_right hlost)⟩

theorem of_same (houtcome : stopped.outcome = whole.outcome) (htree : stopped.tree = whole.tree)
    (hclean : ∀ s, whole.outcome = .ok s → s.failed = []) : StopsFirst lost whole stopped := by
  intro s hs
  refine ⟨fun _ => ⟨houtcome.trans hs, htree⟩, fun p rest hf => ?_⟩
  rw [hclean s hs] at hf
  cases hf

theorem of_head (rest : List (Text × Failure))
    (hwhole : ∀ s, whole.outcome = .ok s → (x :: rest).map (·.1) <+: s.failed)
    (hstopped : stopped.outcome = .ok (.of dry success [x]) ∨
      stopped.outcome = .error .nullCharacter ∧ lost) : StopsFirst lost whole stopped := by
  intro s hs
  have hmore := hwhole s hs
  refine ⟨fun hf => ?_, fun p more hf => hstopped.imp_left fun hs' => ⟨_, hs', ?_⟩⟩
  · rw [hf] at hmore
    cases List.prefix_nil.1 hmore
  · rw [hf, List.map_cons, List.cons_prefix_cons] at hmore
    rw [Summary.of, List.map_singleton, hmore.1]

end StopsFirst

section Failed

theorem failed_of_promote (hs : (promote .bestEffort backup failures targets w).outcome = .ok s) :
    s.failed = (failures ++ (Pass.run .bestEffort Target.path (Workspace.promote backup)
      (failures.map (·.1)) targets w).failures).map (·.1) := by
  unfold promote at hs
  simp only [Pass.halted_bestEffort, Bool.false_eq_true, if_false] at hs
  split at hs
  · cases hs
  · cases hs
    rfl

theorem failed_of_atomic (hs : (atomic t .bestEffort backup failures targets).outcome = .ok s) :
    (failures ++ (staged backup t .bestEffort targets).failures).map (·.1) <+: s.failed := by
  unfold atomic at hs
  simp only [Pass.halted_bestEffort, Bool.false_eq_true, if_false] at hs
  split at hs
  · cases hs
  · rw [failed_of_promote hs]
    exact (List.prefix_append _ _).map _

theorem failed_of_direct (hs : (direct t .bestEffort backup failures targets).outcome = .ok s) :
    s.failed = (failures ++
      (Pass.run .bestEffort Target.path (directStep backup) [] targets t).failures).map (·.1) := by
  unfold direct at hs
  dsimp only at hs
  split at hs
  · cases hs
  · cases hs
    rfl

theorem failed_of_dryRun (hs : (dryRun t .bestEffort failures targets).outcome = .ok s) :
    failures.map (·.1) <+: s.failed := by
  cases hs
  exact (List.prefix_append _ _).map _

theorem failed_of_runAt (hs : (runAt t base changes .bestEffort options).outcome = .ok s) :
    (resolved t base .bestEffort changes).failures.map (·.1) <+: s.failed := by
  unfold runAt at hs
  simp only [Pass.halted_bestEffort, Bool.false_eq_true, if_false] at hs
  split at hs
  · cases hs
  · split at hs
    · exact failed_of_dryRun hs
    · split at hs
      · exact ((List.prefix_append _ _).map _).trans (failed_of_atomic hs)
      · rw [failed_of_direct hs]
        exact (List.prefix_append _ _).map _

end Failed

section Phases

theorem rollback_outcome (h : w.Undoable targets) :
    (rollback failures w).outcome = .ok (.of false [] failures) ∨
      (rollback failures w).outcome = .error .nullCharacter ∧ ∃ c ∈ targets, c.Unrestorable := by
  have hundone := Pass.run_abort Target.path (fun _ => Workspace.undo) .bestEffort []
    (Workspace.Undoable targets) (fun c a => a = .nullCharacter ∧ c.Unrestorable)
    (fun _ c hc _ h' => h'.undo (h.promoted c (List.mem_reverse.1 hc)).2) h
  unfold rollback
  dsimp only
  split
  · next a ha =>
    obtain ⟨c, hc, rfl, hlost⟩ := hundone.2 a ha
    exact .inr ⟨rfl, c, (h.promoted c (List.mem_reverse.1 hc)).1, hlost⟩
  · exact .inl rfl

theorem promote_stopsFirst (h : w.Undoable targets) :
    StopsFirst (∃ c ∈ targets, c.Unrestorable) (promote .bestEffort backup [] targets w)
      (promote .failFast backup [] targets w) := by
  obtain ⟨hsame, hfirst⟩ := Pass.run_failFast Target.path (Workspace.promote backup) [] targets w
  cases hf : (Pass.run .bestEffort Target.path (Workspace.promote backup) [] targets w).failures with
  | nil =>
    have heq : promote .failFast backup [] targets w = promote .bestEffort backup [] targets w := by
      unfold promote
      simp only [List.map_nil, hsame hf, Pass.halted, hf, List.isEmpty_nil, Bool.not_true, Bool.and_false]
    refine .of_same (congrArg _ heq) (congrArg _ heq) fun s hs => ?_
    rw [failed_of_promote hs, List.map_nil, hf]
    rfl
  | cons x rest =>
    obtain ⟨hx, habort⟩ := hfirst x rest hf
    have hstopped : promote .failFast backup [] targets w =
        rollback [x] (Pass.run .failFast Target.path (Workspace.promote backup) [] targets w).state := by
      unfold promote
      simp [Pass.halted, hx, habort]
    have hundoable := Pass.run_keeps Target.path (Workspace.promote backup) .failFast []
      (Workspace.Undoable targets) (fun failed c hc w h => h.promote hc backup failed) h
    refine .of_head rest (fun s hs => ?_) (hstopped ▸ rollback_outcome hundoable)
    rw [failed_of_promote hs, List.map_nil, hf]
    exact List.prefix_refl _

theorem atomic_stopsFirst :
    StopsFirst (∃ c ∈ targets, c.Unrestorable) (atomic t .bestEffort backup [] targets)
      (atomic t .failFast backup [] targets) := by
  obtain ⟨hsame, hfirst⟩ := Pass.run_failFast Target.path (fun _ => Workspace.stage) [] targets
    (Workspace.start t backup targets)
  have hstart : (Workspace.start t backup targets).Undoable targets := ⟨nofun, nofun⟩
  have hundoable : (staged backup t .bestEffort targets).state.Undoable targets :=
    Pass.run_keeps Target.path (fun _ => Workspace.stage) .bestEffort [] (Workspace.Undoable targets)
      (fun _ c _ _ h => h.stage c) hstart
  cases hf : (staged backup t .bestEffort targets).failures with
  | nil =>
    have hpromote (policy : Policy) (ha : (staged backup t .bestEffort targets).abort? = none)
        (hsame : staged backup t policy targets = staged backup t .bestEffort targets) :
        atomic t policy backup [] targets =
          promote policy backup [] targets (staged backup t .bestEffort targets).state := by
      unfold atomic
      simp [hsame, ha, Pass.halted, hf]
    cases ha : (staged backup t .bestEffort targets).abort? with
    | some a =>
      intro s hs
      simp [atomic, ha] at hs
    | none =>
      rw [hpromote .bestEffort ha rfl, hpromote .failFast ha (hsame hf)]
      exact promote_stopsFirst hundoable
  | cons x rest =>
    obtain ⟨hx, habort⟩ := hfirst x rest hf
    have hstopped : (atomic t .failFast backup [] targets).outcome = .ok (.of false [] [x]) := by
      unfold atomic
      simp [Pass.halted, hx, habort]
    refine .of_head rest (fun s hs => ?_) (.inl hstopped)
    rw [← hf]
    exact failed_of_atomic hs

theorem direct_stopsFirst :
    StopsFirst False (direct t .bestEffort backup [] targets) (direct t .failFast backup [] targets) := by
  obtain ⟨hsame, hfirst⟩ := Pass.run_failFast Target.path (directStep backup) [] targets t
  cases hf : (Pass.run .bestEffort Target.path (directStep backup) [] targets t).failures with
  | nil =>
    have heq : direct t .failFast backup [] targets = direct t .bestEffort backup [] targets := by
      have hsame := hsame hf
      unfold directStep at hsame
      simp only [direct, hsame]
    refine .of_same (congrArg _ heq) (congrArg _ heq) fun s hs => ?_
    rw [failed_of_direct hs, hf]
    rfl
  | cons x rest =>
    obtain ⟨hx, habort⟩ := hfirst x rest hf
    have hstopped : (direct t .failFast backup [] targets).outcome =
        .ok (.of false (Pass.run .failFast Target.path (directStep backup) [] targets t).done [x]) := by
      unfold directStep at hx habort ⊢
      simp [direct, hx, habort]
    refine .of_head rest (fun s hs => ?_) (.inl hstopped)
    rw [failed_of_direct hs, hf]
    exact List.prefix_refl _

theorem dryRun_stopsFirst :
    StopsFirst False (dryRun t .bestEffort [] targets) (dryRun t .failFast [] targets) := by
  let step (_ : List Text) (c : Target) : EStateM Failure Unit Text := ofExcept (c.plan t)
  obtain ⟨hsame, hfirst⟩ := Pass.run_failFast Target.path step [] targets ()
  cases hf : (Pass.run .bestEffort Target.path step [] targets ()).failures with
  | nil =>
    have heq : dryRun t .failFast [] targets = dryRun t .bestEffort [] targets := by
      have hsame := hsame hf
      simp only [dryRun, step] at hsame ⊢
      rw [hsame]
    refine .of_same (congrArg _ heq) (congrArg _ heq) fun s hs => ?_
    cases hs
    exact congrArg (List.map _) hf
  | cons x rest =>
    have hx := (hfirst x rest hf).1
    refine .of_head rest (fun s hs => ?_) (.inl (congrArg (fun fs => Except.ok (Summary.of true _ fs)) hx))
    cases hs
    rw [← hf]
    exact List.prefix_refl _

theorem runAt_stopsFirst :
    StopsFirst (options.dryRun = false ∧ options.atomic = true ∧
        ∃ c ∈ (resolved t base .bestEffort changes).done, c.Unrestorable)
      (runAt t base changes .bestEffort options) (runAt t base changes .failFast options) := by
  obtain ⟨hsame, hfirst⟩ := Pass.run_failFast Change.path
    (fun _ c => (ofExcept (c.resolve t base) : EStateM Failure Unit Target)) [] changes ()
  cases hf : (resolved t base .bestEffort changes).failures with
  | nil =>
    unfold runAt
    simp only [hsame hf, hf, Pass.halted, List.isEmpty_nil, Bool.not_true, Bool.and_false,
      Bool.false_eq_true, if_false]
    cases (resolved t base .bestEffort changes).abort? with
    | some a =>
      intro s hs
      cases hs
    | none =>
      cases options.dryRun with
      | true => exact dryRun_stopsFirst.mono False.elim
      | false =>
        cases options.atomic with
        | true => exact fun s hs => (atomic_stopsFirst.mono fun hlost => ⟨rfl, rfl, hlost⟩) s hs
        | false => exact fun s hs => (direct_stopsFirst.mono False.elim) s hs
  | cons x rest =>
    obtain ⟨hx, habort⟩ := hfirst x rest hf
    have hstopped : (runAt t base changes .failFast options).outcome =
        .ok (.of options.dryRun [] [x]) := by
      unfold runAt
      simp [Pass.halted, hx, habort]
    refine .of_head rest (fun s hs => ?_) (.inl hstopped)
    rw [← hf]
    exact failed_of_runAt hs

end Phases

/-- If a batch that goes on after failures reports none, the batch that stops at its first failure gives the
same report and the same tree. If it reports some, the other batch reports the first of them and no more;
only where changes made by way of temporary files are taken back can it be given up, for the deletion of a
file whose former text is known but that has a null character on its path. -/
theorem run_stops_first {names : List Name}
    (hs : (run t names changes .bestEffort options).outcome = .ok s) :
    let whole := run t names changes .bestEffort options
    let stopped := run t names changes .failFast options
    (s.failed = [] → stopped.outcome = .ok s ∧ stopped.tree = whole.tree) ∧
    ∀ p rest, s.failed = p :: rest →
      (∃ s', stopped.outcome = .ok s' ∧ s'.failed = [p]) ∨
      stopped.outcome = .error .nullCharacter ∧ options.dryRun = false ∧ options.atomic = true ∧
        ∃ base, t.realPath names = .ok base ∧ ∃ c ∈ changes, c.action = .delete ∧ c.former.isSome ∧
          ∃ target, c.resolve t base = .ok target ∧ Path.hasNull target.dest = true := by
  obtain ⟨base, hb⟩ := realPath_of_run hs
  simp only [run_eq_runAt hb] at hs ⊢
  obtain ⟨hsame, hfirst⟩ := runAt_stopsFirst s hs
  refine ⟨hsame, fun p rest hf => (hfirst p rest hf).imp_right ?_⟩
  rintro ⟨habort, hdry, hatomic, target, htarget, hdelete, hformer, hnull⟩
  obtain ⟨c, hc, hres⟩ := Pass.mem_done_ofExcept Change.path .bestEffort [] _ () htarget
  have hchange : target.change = c := congrArg Target.change (Change.resolve_cases hres).1
  refine ⟨habort, hdry, hatomic, base, hb, c, hc, ?_, ?_, target, hres, hnull⟩
  · exact hchange ▸ hdelete
  · exact hchange ▸ hformer

theorem run_stops_first_missing :
    let t := FileTree.empty.put ["d".toList] .dir
    let changes : List Change := [⟨.create, "n".toList, some "x".toList, none⟩,
      ⟨.modify, "m".toList, some "y".toList, none⟩, ⟨.create, "d".toList, none, none⟩]
    let options : Options := { policy := some .bestEffort, atomic := true }
    (run t [] changes .bestEffort options).outcome.map Summary.failed = .ok ["m".toList, "d".toList] ∧
      ∃ s', (run t [] changes .failFast options).outcome = .ok s' ∧ s'.failed = ["m".toList] := by
  intro t changes options
  have hfailed : (run t [] changes .bestEffort options).outcome.map Summary.failed =
      .ok ["m".toList, "d".toList] := by
    decide +kernel
  obtain ⟨s, hs, hf⟩ := Except.map_eq_ok.1 hfailed
  refine ⟨hfailed, ((run_stops_first hs).2 _ _ hf).resolve_right ?_⟩
  rintro ⟨-, -, -, -, -, c, hc, hdelete, -⟩
  have hnone : ∀ c ∈ changes, c.action ≠ .delete := by decide
  exact hnone c hc hdelete

/-- Where a file is deleted behind a link that leads back to itself, and a null character is on its path,
nothing is there to be deleted; but when another change fails, its former text is to be written back. -/
theorem not_run_stops_first_null :
    ¬∀ (t : FileTree) (changes : List Change) (s : Summary),
      let options : Options := { policy := some .bestEffort, atomic := true }
      (run t [] changes .bestEffort options).outcome = .ok s →
        ∀ p rest, s.failed = p :: rest →
          ∃ s', (run t [] changes .failFast options).outcome = .ok s' ∧ s'.failed = [p] := by
  intro h
  let t := (FileTree.empty.put ["l".toList] (.link "l".toList)).put ["d".toList] .dir
  let changes : List Change := [⟨.delete, "l/a\x00".toList, none, some "x".toList⟩,
    ⟨.create, "d".toList, some "y".toList, none⟩]
  let options : Options := { policy := some .bestEffort, atomic := true }
  have hfailed : (run t [] changes .bestEffort options).outcome.map Summary.failed = .ok ["d".toList] := by
    decide +kernel
  have habort : (run t [] changes .failFast options).outcome = .error .nullCharacter := by
    decide +kernel
  obtain ⟨s, hs, hf⟩ := Except.map_eq_ok.1 hfailed
  obtain ⟨s', hs', -⟩ := h t changes s hs _ _ hf
  rw [habort] at hs'
  cases hs'

end Commit

end Emend
