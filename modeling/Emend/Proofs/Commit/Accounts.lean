import Emend.Proofs.Commit.Abort
import Emend.Proofs.Commit.Success
import Mathlib.Data.List.Nodup

namespace Emend

open EStateM

namespace Pass

variable {σ α β : Type} (path : α → Text) (step : List Text → α → EStateM Failure σ β)
  {items : List α} {s : σ}

theorem run_perm (name : β → Text)
    (hstep : ∀ failed a s b s', step failed a s = .ok b s' → path a = name b)
    (hn : (run .bestEffort path step [] items s).abort? = none) :
    let p := run .bestEffort path step [] items s
    (p.done.map name ++ p.failures.map (·.1)).Perm (items.map path) ∧
      (p.done.map name).Sublist (items.map path) := by
  let keep (rest : List α) (done : List β) (failed : List Text) (_ : σ) : Prop :=
    (done.map name ++ (failed ++ rest.map path)).Perm (items.map path) ∧
      (done.map name ++ rest.map path).Sublist (items.map path)
  have hkeep : ∀ a rest done failed s, keep (a :: rest) done failed s →
      (step failed a).Ends s (fun b => keep rest (done ++ [b]) failed)
        (fun _ => keep rest done (failed ++ [path a])) := by
    rintro a rest done failed s ⟨hperm, horder⟩
    apply (ends_self (step failed a) s).mono
    · intro b s' hs
      have hdone : (done ++ [b]).map name = done.map name ++ [path a] := by
        rw [List.map_append, List.map_singleton, hstep failed a s b s' hs]
      dsimp only [keep]
      rw [hdone, List.append_assoc, List.append_assoc, List.singleton_append]
      exact ⟨(List.perm_middle.symm.append_left _).trans hperm, horder⟩
    · intro e s' hs
      dsimp only [keep]
      rw [List.append_assoc failed]
      exact ⟨hperm, ((List.sublist_cons_self _ _).append_left _).trans horder⟩
  have hstart : keep items [] [] s := ⟨.refl _, .refl _⟩
  simpa [keep] using run_bestEffort path step keep hkeep [] [] hstart hn

theorem failures_sublist (hn : (run .bestEffort path step [] items s).abort? = none) :
    ((run .bestEffort path step [] items s).failures.map (·.1)).Sublist (items.map path) := by
  let keep (rest : List α) (_ : List β) (failed : List Text) (_ : σ) : Prop :=
    (failed ++ rest.map path).Sublist (items.map path)
  have hkeep : ∀ a rest done failed s, keep (a :: rest) done failed s →
      (step failed a).Ends s (fun b => keep rest (done ++ [b]) failed)
        (fun _ => keep rest done (failed ++ [path a])) := by
    intro a rest done failed s h
    apply (ends_self (step failed a) s).mono
    · exact fun _ _ _ => ((List.sublist_cons_self _ _).append_left _).trans h
    · intro _ _ _
      dsimp only [keep]
      rw [List.append_assoc]
      exact h
  have hstart : keep items [] [] s := .refl _
  simpa [keep] using run_bestEffort path step keep hkeep [] [] hstart hn

end Pass

namespace Workspace

variable {α β : Type} {w : Workspace} {c : Target} {paths failed : List Text} {rest : List Target}

def Unpromoting (x : Work α) : Prop :=
  ∀ w : Workspace, x.Ends w (fun _ w' => w'.promoted = w.promoted) (fun _ w' => w'.promoted = w.promoted)

namespace Unpromoting

theorem bind {x : Work α} {f : α → Work β} (hx : Unpromoting x) (hf : ∀ a, Unpromoting (f a)) :
    Unpromoting (x >>= f) := by
  intro w
  rw [ends_bind]
  apply (hx w).imp_ok
  intro a w' he
  apply (hf a w').mono
  · exact fun _ _ h => h.trans he
  · exact fun _ _ h => h.trans he

theorem call (x : Call α) : Unpromoting (call x) := by
  intro w
  rw [ends_call]
  exact (ends_self x w.tree).mono (fun _ _ _ => rfl) (fun _ _ _ => rfl)

theorem setAside (dest : Path) : Unpromoting (setAside dest) := by
  intro w
  simp only [Workspace.setAside, ends_bind, ends_get]
  apply (call (FileTree.makeTemp w.reserved dest.parent .setAside .empty) w).imp_ok
  intro temp w₁ h₁
  apply (call (FileTree.rename dest temp) w₁).mono
  · exact fun _ w₂ h₂ => h₂.trans h₁
  · exact fun _ w₂ h₂ => h₂.trans h₁

theorem stage (c : Target) : Unpromoting (stage c) := by
  intro w
  simp only [Workspace.stage, ends_bind, ends_get]
  split
  · rfl
  · split
    · rfl
    · simp only [ends_bind]
      apply (call (FileTree.makeDirs c.dest.parent) w).imp_ok
      intro _ w₁ h₁
      apply (call (FileTree.makeTemp w.reserved c.dest.parent .staged c.bytes) w₁).mono
      · exact fun _ w₂ h₂ => h₂.trans h₁
      · exact fun _ w₂ h₂ => h₂.trans h₁

theorem promoteDelete (c : Target) : Unpromoting (promoteDelete c) := by
  intro w
  simp only [Workspace.promoteDelete, ends_bind, ends_get]
  split
  · split
    · exact call (FileTree.removeFile c.dest) w
    · exact setAside c.dest w
  · rfl

theorem promoteWrite (backup : Option Text) (c : Target) : Unpromoting (promoteWrite backup c) := by
  intro w
  simp only [Workspace.promoteWrite, ends_bind, ends_get]
  split
  · rfl
  · split
    · rfl
    · next temp ht =>
      simp only [ends_bind, ends_set]
      have hmove := (call (Backup.write backup c)).bind fun _ => call (FileTree.rename temp c.dest)
      exact ends_bind.1 (hmove { w with staged := w.staged.remove c.dest })

end Unpromoting

theorem promote_counts (backup : Option Text) (failed : List Text) (c : Target) (w : Workspace) :
    (promote backup failed c).Ends w
      (fun _ w' => c.path ∈ failed ∧ w'.promoted = w.promoted ∨
        c.path ∉ failed ∧ w'.promoted = w.promoted ++ [c])
      (fun _ w' => c.path ∉ failed ∧ w'.promoted = w.promoted) := by
  unfold promote
  split
  · next h => exact .inl ⟨List.contains_iff_mem.1 h, rfl⟩
  · next h =>
    have hnew : c.path ∉ failed := fun hmem => h (List.contains_iff_mem.2 hmem)
    have hcount {x : Work Unit} (hx : Unpromoting x) :
        (x >>= fun _ => modify fun w => { w with promoted := w.promoted ++ [c] }).Ends w
          (fun _ w' => c.path ∈ failed ∧ w'.promoted = w.promoted ∨
            c.path ∉ failed ∧ w'.promoted = w.promoted ++ [c])
          (fun _ w' => c.path ∉ failed ∧ w'.promoted = w.promoted) := by
      simp only [ends_bind, ends_modify]
      apply (hx w).mono
      · exact fun _ w' he => .inr ⟨hnew, congrArg (· ++ [c]) he⟩
      · exact fun _ w' he => ⟨hnew, he⟩
    split
    · exact hcount (.promoteDelete c)
    · exact hcount (.promoteWrite backup c)

/-- Each of the paths is that of a promoted change, of one that has failed or of one to come, and none
has both been promoted and failed. -/
structure Counted (paths : List Text) (rest : List Target) (failed : List Text) (w : Workspace) :
    Prop where
  nodup : (w.promoted.map Target.path ++ failed).Nodup
  covers : ∀ p, p ∈ paths ↔ p ∈ w.promoted.map Target.path ∨ p ∈ failed ∨ p ∈ rest.map Target.path
  order : (w.promoted.map Target.path ++ rest.map Target.path).Sublist paths

namespace Counted

variable {w' : Workspace}

theorem skip (h : Counted paths (c :: rest) failed w) (hc : c.path ∈ failed)
    (he : w'.promoted = w.promoted) : Counted paths rest failed w' where
  nodup := by
    rw [he]
    exact h.nodup
  covers p := by
    rw [he, h.covers p, List.map_cons, List.mem_cons]
    grind
  order := by
    rw [he]
    exact ((List.sublist_cons_self _ _).append_left _).trans h.order

theorem nodup_next (h : Counted paths (c :: rest) failed w) (hpaths : paths.Nodup)
    (hc : c.path ∉ failed) : (c.path :: (w.promoted.map Target.path ++ failed)).Nodup := by
  have hapart := List.disjoint_of_nodup_append (h.order.nodup hpaths)
  have hnew : c.path ∉ w.promoted.map Target.path := fun hmem => hapart hmem List.mem_cons_self
  rw [List.nodup_cons, List.mem_append, not_or]
  exact ⟨⟨hnew, hc⟩, h.nodup⟩

theorem make (h : Counted paths (c :: rest) failed w) (hpaths : paths.Nodup) (hc : c.path ∉ failed)
    (he : w'.promoted = w.promoted ++ [c]) : Counted paths rest failed w' where
  nodup := by
    rw [he, List.map_append, List.map_singleton, List.append_assoc]
    exact List.perm_middle.symm.nodup (h.nodup_next hpaths hc)
  covers p := by
    rw [he, h.covers p, List.map_append, List.mem_append, List.map_cons, List.mem_cons]
    grind
  order := by
    rw [he, List.map_append, List.append_assoc]
    exact h.order

theorem fail (h : Counted paths (c :: rest) failed w) (hpaths : paths.Nodup) (hc : c.path ∉ failed)
    (he : w'.promoted = w.promoted) : Counted paths rest (failed ++ [c.path]) w' where
  nodup := by
    rw [he, ← List.append_assoc]
    exact (List.perm_append_singleton _ _).symm.nodup (h.nodup_next hpaths hc)
  covers p := by
    rw [he, h.covers p, List.map_cons, List.mem_cons, List.mem_append]
    grind
  order := by
    rw [he]
    exact ((List.sublist_cons_self _ _).append_left _).trans h.order

theorem promote (h : Counted paths (c :: rest) failed w) (hpaths : paths.Nodup)
    (backup : Option Text) :
    (Workspace.promote backup failed c).Ends w (fun _ => Counted paths rest failed)
      (fun _ => Counted paths rest (failed ++ [c.path])) := by
  apply (promote_counts backup failed c w).mono
  · rintro _ w' (⟨hc, he⟩ | ⟨hc, he⟩)
    · exact h.skip hc he
    · exact h.make hpaths hc he
  · exact fun _ w' ⟨hc, he⟩ => h.fail hpaths hc he

end Counted

end Workspace

theorem Target.plan_not_aborted (t : FileTree) (c : Target) (a : Abort) :
    c.plan t ≠ .error (.call (.aborted a)) := by
  unfold plan
  split
  · split
    · nofun
    · nofun
  · nofun

theorem Change.path_of_resolve {t : FileTree} {base : RealPath} {c : Change} {target : Target}
    (h : c.resolve t base = .ok target) : target.path = c.path :=
  congrArg Target.path (resolve_cases h).1

namespace Commit

variable {t : FileTree} {base : RealPath} {options : Options} {backup : Option Text}
  {failures : List (Text × Failure)} {targets : List Target} {changes : List Change} {s : Summary}

theorem promote_accounts {paths : List Text} (hpaths : paths.Nodup) {w : Workspace}
    (h : w.Counted paths targets (failures.map (·.1)))
    (hs : (promote .bestEffort backup failures targets w).outcome = .ok s) :
    ∃ w' : Workspace, s.success = w'.promoted.map Target.path ∧ w'.Counted paths [] s.failed := by
  unfold promote at hs
  simp only [Pass.halted_bestEffort, Bool.false_eq_true, if_false] at hs
  split at hs
  · cases hs
  · next hpromoted =>
    cases hs
    refine ⟨_, rfl, ?_⟩
    have hall := Pass.run_bestEffort Target.path (Workspace.promote backup)
      (fun rest (_ : List Unit) failed w => w.Counted paths rest failed)
      (fun _ _ _ _ _ h => h.promote hpaths backup) [] _ h hpromoted
    simpa only [Summary.of, List.map_append] using hall

/-- Where the paths are distinct, what has failed before, and what fails while contents are staged, is
passed over. -/
theorem atomic_accounts {paths : List Text} (hpaths : paths.Nodup)
    (hperm : (targets.map Target.path ++ failures.map (·.1)).Perm paths)
    (horder : (targets.map Target.path).Sublist paths)
    (hs : (atomic t .bestEffort backup failures targets).outcome = .ok s) :
    (s.success ++ s.failed).Perm paths ∧ s.success.Sublist paths := by
  unfold atomic at hs
  simp only [Pass.halted_bestEffort, Bool.false_eq_true, if_false] at hs
  split at hs
  · cases hs
  · next hstaged =>
    have hsub := Pass.failures_sublist Target.path (fun _ => Workspace.stage) hstaged
    have hkept : (staged backup t .bestEffort targets).state.promoted = [] :=
      Pass.run_keeps Target.path (fun _ => Workspace.stage) .bestEffort [] (fun w => w.promoted = [])
        (fun _ c _ w hw => (Workspace.Unpromoting.stage c w).mono (fun _ _ he => he.trans hw)
          (fun _ _ he => he.trans hw)) rfl
    have hnodup := List.nodup_append_comm.1 (hperm.symm.nodup hpaths)
    have hstart : (staged backup t .bestEffort targets).state.Counted paths targets
        ((failures ++ (staged backup t .bestEffort targets).failures).map (·.1)) := {
      nodup := by
        rw [hkept, List.map_append]
        exact (hsub.append_left _).nodup hnodup
      covers p := by
        have hmem (hp : p ∈ (staged backup t .bestEffort targets).failures.map (·.1)) := hsub.subset hp
        rw [← hperm.mem_iff, hkept, List.map_append, List.mem_append, List.mem_append]
        grind
      order := by
        rw [hkept]
        exact horder }
    obtain ⟨w, hsuccess, hall⟩ := promote_accounts hpaths hstart hs
    rw [hsuccess]
    refine ⟨(List.perm_ext_iff_of_nodup hall.nodup hpaths).2 fun p => ?_, ?_⟩
    · simpa using (hall.covers p).symm
    · simpa using hall.order

theorem direct_accounts (hs : (direct t .bestEffort backup failures targets).outcome = .ok s) :
    (s.success ++ s.failed).Perm (targets.map Target.path ++ failures.map (·.1)) := by
  unfold direct at hs
  dsimp only at hs
  split at hs
  · cases hs
  · next hmade =>
    cases hs
    have hall := (Pass.run_perm Target.path (directStep backup) id directStep_path hmade).1
    rw [List.map_id] at hall
    simp only [Summary.of, List.map_append]
    apply (List.perm_append_comm.append_left _).trans
    rw [← List.append_assoc]
    exact hall.append_right _

theorem dryRun_accounts (hs : (dryRun t .bestEffort failures targets).outcome = .ok s) :
    s.success.length + s.failed.length = targets.length + failures.length := by
  cases hs
  have hcall : (Pass.run .bestEffort Target.path
      (fun _ c => (ofExcept (c.plan t) : EStateM Failure Unit Text)) [] targets ()).abort? = none := by
    rw [Option.eq_none_iff_forall_ne_some]
    intro a ha
    obtain ⟨c, -, he⟩ := Pass.abort_ofExcept Target.path .bestEffort [] _ () ha
    exact c.plan_not_aborted t a he
  have hlength := Pass.run_length Target.path _ [] targets () hcall
  simp only [Summary.of, List.map_append, List.length_append, List.length_map]
  omega

theorem resolved_accounts (hn : (resolved t base .bestEffort changes).abort? = none) :
    let p := resolved t base .bestEffort changes
    (p.done.map Target.path ++ p.failures.map (·.1)).Perm (changes.map Change.path) ∧
      (p.done.map Target.path).Sublist (changes.map Change.path) :=
  Pass.run_perm Change.path (fun _ c => ofExcept (c.resolve t base)) Target.path
    (fun _ _ _ _ _ hs => (Change.path_of_resolve (Pass.ofExcept_eq_ok hs)).symm) hn

/-- A batch that is not given up is made from what could be resolved of it. -/
theorem runAt_accounts (hs : (runAt t base changes .bestEffort options).outcome = .ok s) :
    let paths := changes.map Change.path
    (options.dryRun = true → s.success.length + s.failed.length = changes.length) ∧
    (options.dryRun = false → options.atomic = false → (s.success ++ s.failed).Perm paths) ∧
    (options.dryRun = false → options.atomic = true → paths.Nodup →
      (s.success ++ s.failed).Perm paths ∧ s.success.Sublist paths) := by
  intro paths
  unfold runAt at hs
  simp only [Pass.halted_bestEffort, Bool.false_eq_true, if_false] at hs
  split at hs
  · cases hs
  · next hresolved =>
    obtain ⟨hperm, horder⟩ := resolved_accounts hresolved
    cases hdry : options.dryRun with
    | true =>
      simp only [hdry, if_true] at hs
      have hlength := hperm.length_eq
      simp only [List.length_append, List.length_map] at hlength
      exact ⟨fun _ => (dryRun_accounts hs).trans hlength, nofun, nofun⟩
    | false =>
      simp only [hdry, Bool.false_eq_true, if_false] at hs
      cases hatomic : options.atomic with
      | true =>
        simp only [hatomic, if_true] at hs
        exact ⟨nofun, nofun, fun _ _ hpaths => atomic_accounts hpaths hperm horder hs⟩
      | false =>
        simp only [hatomic, Bool.false_eq_true, if_false] at hs
        exact ⟨nofun, fun _ _ => (direct_accounts hs).trans hperm, nofun⟩

section Errors

variable {policy : Policy} {w : Workspace}

theorem keys_errors_of_promote (hs : (promote policy backup failures targets w).outcome = .ok s)
    (p : Text) : p ∈ s.errors.keys ↔ p ∈ s.failed := by
  unfold promote rollback at hs
  dsimp only at hs
  split at hs
  · cases hs
  · split at hs
    · split at hs
      · cases hs
      · cases hs
        exact Summary.mem_keys_errors_of _ _ _ p
    · cases hs
      exact Summary.mem_keys_errors_of _ _ _ p

theorem keys_errors_of_runAt (hs : (runAt t base changes policy options).outcome = .ok s) (p : Text) :
    p ∈ s.errors.keys ↔ p ∈ s.failed := by
  unfold runAt dryRun atomic direct at hs
  dsimp only at hs
  split at hs
  · cases hs
  · split at hs
    · cases hs
      exact Summary.mem_keys_errors_of _ _ _ p
    · split at hs
      · cases hs
        exact Summary.mem_keys_errors_of _ _ _ p
      · split at hs
        · split at hs
          · cases hs
          · split at hs
            · cases hs
              exact Summary.mem_keys_errors_of _ _ _ p
            · exact keys_errors_of_promote hs p
        · split at hs
          · cases hs
          · cases hs
            exact Summary.mem_keys_errors_of _ _ _ p

end Errors

/-- Unless it is given up, a batch that goes on after failures accounts for each of its changes once, as
made or as failed, and gives an error for just those that have failed. A dry run says of each change that
it would be made or that it would fail. Changes made by way of temporary files have to be at paths of their
own, as those at a path that has failed are passed over. -/
theorem run_accounts (t : FileTree) (names : List Name) (changes : List Change) (options : Options) :
    let paths := changes.map Change.path
    let made := run t names changes .bestEffort options
    (∃ a, made.outcome = .error a ∧
      (Unresolved t names changes a ∨ Unfit t names changes options a)) ∨
    ∃ s, made.outcome = .ok s ∧ (∀ p, p ∈ s.errors.keys ↔ p ∈ s.failed) ∧
      (options.dryRun = true ∨ options.atomic = false →
        s.success.length + s.failed.length = changes.length) ∧
      (options.dryRun = false → options.atomic = false → (s.success ++ s.failed).Perm paths) ∧
      (options.dryRun = false → options.atomic = true → paths.Nodup →
        s.success.length + s.failed.length = changes.length ∧ s.success.Disjoint s.failed ∧
        (∀ p, p ∈ paths ↔ p ∈ s.success ∨ p ∈ s.failed) ∧ s.success.Sublist paths) := by
  intro paths made
  cases hs : made.outcome with
  | error a => exact .inl ⟨a, rfl, (run_given_up hs).imp_left And.right⟩
  | ok s =>
    have hat : ∃ base, (runAt t base changes .bestEffort options).outcome = .ok s := by
      unfold made run at hs
      cases hb : t.realPath names with
      | error b => simp [hb] at hs
      | ok base =>
        rw [hb] at hs
        exact ⟨base, hs⟩
    obtain ⟨base, hat⟩ := hat
    obtain ⟨hdry, hdirect, hatomic⟩ := runAt_accounts hat
    have hlength (hperm : (s.success ++ s.failed).Perm paths) :
        s.success.length + s.failed.length = changes.length := by
      rw [← List.length_append, hperm.length_eq, List.length_map]
    refine .inr ⟨s, rfl, keys_errors_of_runAt hat, ?_, hdirect, fun hd ha hpaths => ?_⟩
    · intro h
      cases hd : options.dryRun with
      | true => exact hdry hd
      | false => exact hlength (hdirect hd (h.resolve_left (by simp [hd])))
    · obtain ⟨hperm, horder⟩ := hatomic hd ha hpaths
      refine ⟨hlength hperm, List.disjoint_of_nodup_append (hperm.symm.nodup hpaths), ?_, horder⟩
      exact fun p => hperm.symm.mem_iff.trans List.mem_append

/-- A null character on the way to a new file is not taken for a failure of that one change: there is no
report at all. -/
theorem not_run_accounts_null :
    ¬∀ (t : FileTree) (names : List Name) (changes : List Change),
      let options : Options := { policy := some .bestEffort, atomic := false }
      ∃ s, (run t names changes .bestEffort options).outcome = .ok s ∧
        s.success.length + s.failed.length = changes.length := by
  intro h
  let changes : List Change := [⟨.create, "a\x00".toList, some "x".toList, none⟩]
  have habort : (run FileTree.empty [] changes .bestEffort
      { policy := some .bestEffort, atomic := false }).outcome = .error .nullCharacter := by
    decide +kernel
  obtain ⟨s, hs, -⟩ := h FileTree.empty [] changes
  rw [habort] at hs
  cases hs

end Commit

end Emend
