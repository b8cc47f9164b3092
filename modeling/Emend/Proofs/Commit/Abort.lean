import Emend.Commit
import Emend.Proofs.Commit.Ledger
import Emend.Proofs.Commit.Pass
import Emend.Proofs.Commit.Step
import Emend.Proofs.FileTree.Abort
import Emend.Proofs.Text.Joined

namespace Emend

open EStateM FileTree

/-- Why a change can be what a commit is given up for, whatever the tree holds. -/
inductive Target.Unfit (backup : Option Text) (c : Target) : Abort → Prop
  | place (h : Path.hasNull c.dest = true) : Unfit backup c .nullCharacter
  | backup {ext : Text} (hext : backup = some ext) (ha : c.action = .modify) (h : '\x00' ∈ ext) :
      Unfit backup c .nullCharacter
  /-- The making of the directories above a new place is given up in some tree. -/
  | deep {t t' : FileTree} (hw : c.Writes)
      (h : makeDirs c.dest.parent t = .error (.aborted .tooDeep) t') : Unfit backup c .tooDeep

/-- If the failure ends the whole batch, that is for the change. -/
def Target.Explains (backup : Option Text) (c : Target) (e : Failure) : Prop :=
  ∀ a, e.abort? = some a → c.Unfit backup a

variable {t : FileTree} {backup : Option Text} {c : Target}

namespace Target

variable {names : List Name} {e : CallError}

theorem explains_of_abort? {e : Failure} (h : e.abort? = none) : c.Explains backup e := by
  intro a ha
  rw [h] at ha
  cases ha

theorem explains_call (h : ∀ a, e = .aborted a → c.Unfit backup a) : c.Explains backup (.call e) := by
  intro a ha
  cases e with
  | aborted b =>
    obtain rfl := Option.some.inj ha
    exact h b rfl
  | _ => cases ha

theorem explains_null (h : e.OnlyNull names)
    (hunfit : Path.hasNull names = true → c.Unfit backup .nullCharacter) :
    c.Explains backup (.call e) := by
  refine explains_call fun a ha => ?_
  obtain ⟨rfl, hnull⟩ := h a ha
  exact hunfit hnull

theorem explains_place (h : e.OnlyNull names)
    (hnull : Path.hasNull c.dest = false → Path.hasNull names = false) : c.Explains backup (.call e) :=
  explains_null (h.mono hnull) .place

theorem explains_parent (h : e.OnlyNull c.dest.parent) : c.Explains backup (.call e) :=
  explains_place h (Path.hasNull_mono (Path.parent_isPrefix c.dest))

theorem makeDirs_explains (hw : c.Writes) (t : FileTree) :
    (makeDirs c.dest.parent).Ends t (fun _ _ => True) (fun e _ => c.Explains backup (.call e)) := by
  apply ((ends_self (makeDirs c.dest.parent) t).and (makeDirs_abort c.dest.parent t)).mono
  · exact fun _ _ _ => trivial
  rintro e _ ⟨hdeep, rfl | h⟩
  · refine explains_call fun a ha => ?_
    obtain rfl := CallError.aborted.inj ha
    exact .deep hw hdeep
  · exact explains_parent h

end Target

theorem Path.hasNull_pieces {text : Text} (h : '\x00' ∉ text) : hasNull (pieces text) = false := by
  have hjoin : ['/'].intercalate (pieces text) = text := List.intercalate_splitOn '/'
  rw [← hjoin, Text.mem_intercalate (by decide)] at h
  simpa [hasNull] using h

namespace Backup

theorem hasNull_names {dest : Path} {ext : Text} (hdest : Path.hasNull dest = false)
    (hext : '\x00' ∉ ext) : Path.hasNull (names dest ext) = false := by
  have hlast : '\x00' ∉ dest.getLastD [] := by simpa [Path.hasNull] using Path.hasNull_getLastD hdest
  have hdotted : '\x00' ∉ dotted ext := by
    unfold dotted
    split
    · exact hext
    · simp [hext]
  have hname : '\x00' ∉ dest.getLastD [] ++ dotted ext := by
    rw [List.mem_append, not_or]
    exact ⟨hlast, hdotted⟩
  rw [names, Path.hasNull_append, Bool.or_eq_false_iff]
  exact ⟨Path.hasNull_mono (List.dropLast_prefix dest) hdest, Path.hasNull_pieces hname⟩

theorem write_explains (backup : Option Text) (c : Target) (t : FileTree) :
    (Backup.write backup c).Ends t (fun _ _ => True) (fun e _ => c.Explains backup (.call e)) := by
  unfold EStateM.Ends Backup.write
  cases hext : backup with
  | none => trivial
  | some ext =>
    by_cases hskip : ext = [] ∨ c.action ≠ .modify ∨ !t.has c.dest
    · simp only [hskip, if_true]
    · simp only [hskip, if_false]
      simp only [not_or, Decidable.not_not] at hskip
      have hunfit {ns : List Name} (hns : Path.hasNull c.dest = false →
          Path.hasNull (names c.dest ext) = false → Path.hasNull ns = false)
          (hnull : Path.hasNull ns = true) : c.Unfit (some ext) .nullCharacter := by
        cases hdest : Path.hasNull c.dest with
        | true => exact .place hdest
        | false =>
          by_cases hin : '\x00' ∈ ext
          · exact .backup rfl hskip.2.1 hin
          · rw [hns hdest (hasNull_names hdest hin)] at hnull
            cases hnull
      cases c.change.former with
      | none =>
        apply (copyFile_abort t c.dest (names c.dest ext)).imp_error
        refine fun e _ h => Target.explains_null h (hunfit fun hdest hname => ?_)
        rw [Path.hasNull_append, hdest, hname]
        rfl
      | some former =>
        apply (writeFile_abort t (names c.dest ext) former.encode).imp_error
        exact fun e _ h => Target.explains_null h (hunfit fun _ hname => hname)

end Backup

theorem Direct.apply_explains (backup : Option Text) (c : Target) (t : FileTree) :
    (Direct.apply backup c).Ends t (fun _ _ => True) (fun e _ => c.Explains backup (.call e)) := by
  simp only [Direct.apply, ends_bind, ends_get]
  split
  · split
    · exact (removeFile_abort t c.dest).imp_error fun _ _ h => Target.explains_place h id
    · trivial
  · next ha =>
    simp only [ends_bind]
    apply (Target.makeDirs_explains ha t).imp_ok
    intro _ t₁ _
    apply (Backup.write_explains backup c t₁).imp_ok
    intro _ t₂ _
    exact (writeFile_abort t₂ c.dest c.bytes).imp_error fun _ _ h => Target.explains_place h id

namespace Workspace

/-- Calls can be made on the temporary files, and only changes of the batch have been promoted. -/
structure Callable (targets : List Target) (w : Workspace) : Prop where
  staged : ∀ x ∈ w.staged, Path.hasNull x.2 = false
  trash : ∀ x ∈ w.trash, Path.hasNull x.2 = false
  promoted : ∀ c ∈ w.promoted, c ∈ targets

namespace Callable

variable {w : Workspace} {targets : List Target} (h : w.Callable targets)
include h

theorem withTree (t : FileTree) : Callable targets { w with tree := t } :=
  ⟨h.staged, h.trash, h.promoted⟩

theorem call {α : Type} {x : Call α}
    (hx : x.Ends w.tree (fun _ _ => True) (fun e _ => c.Explains backup (.call e))) :
    (call x).Ends w (fun _ => Callable targets)
      (fun e w' => Callable targets w' ∧ c.Explains backup e) := by
  rw [ends_call]
  apply hx.mono
  · exact fun _ t _ => h.withTree t
  · exact fun _ t he => ⟨h.withTree t, he⟩

theorem stage : (stage c).Ends w (fun _ => Callable targets)
    (fun e w' => Callable targets w' ∧ c.Explains backup e) := by
  simp only [Workspace.stage, ends_bind, ends_get]
  split
  · exact h
  · next ha =>
    split
    · exact ⟨h, Target.explains_of_abort? rfl⟩
    · simp only [ends_bind, ends_call, ends_modify]
      apply (Target.makeDirs_explains ha w.tree).mono
      · intro _ t₁ _
        apply ((makeTemp_effect t₁ _ _ _ _).and (makeTemp_abort t₁ _ _ _ _)).mono
        · rintro temp t₂ ⟨⟨dir, n, hdraws⟩, -⟩
          refine ⟨fun x hx => ?_, h.trash, h.promoted⟩
          obtain rfl | hx := Ledger.mem_of_mem_set hx
          · exact hdraws.hasNull_temp
          · exact h.staged x hx
        · exact fun _ t₂ he => ⟨h.withTree t₂, Target.explains_parent he.2⟩
      · exact fun _ t₁ he => ⟨h.withTree t₁, he⟩

theorem setAside : (setAside c.dest).Ends w (fun _ => Callable targets)
    (fun e w' => Callable targets w' ∧ c.Explains backup e) := by
  simp only [Workspace.setAside, ends_bind, ends_get, ends_call, ends_modify]
  apply ((makeTemp_effect w.tree _ _ _ _).and (makeTemp_abort w.tree _ _ _ _)).mono
  · rintro temp t₁ ⟨⟨dir, n, hdraws⟩, -⟩
    have htemp := hdraws.hasNull_temp
    apply (rename_abort t₁ c.dest temp).mono
    · intro _ t₂ _
      refine ⟨h.staged, fun x hx => ?_, h.promoted⟩
      obtain rfl | hx := Ledger.mem_of_mem_set hx
      · exact htemp
      · exact h.trash x hx
    · refine fun _ t₂ he => ⟨h.withTree t₂, Target.explains_place he fun hdest => ?_⟩
      rw [Path.hasNull_append, hdest, htemp]
      rfl
  · exact fun _ t₁ he => ⟨h.withTree t₁, Target.explains_parent he.2⟩

theorem rename {temp : Path} (htemp : Path.hasNull temp = false) :
    (Workspace.call (FileTree.rename temp c.dest)).Ends w (fun _ => Callable targets)
      (fun e w' => Callable targets w' ∧ c.Explains backup e) := by
  apply h.call
  apply (rename_abort w.tree temp c.dest).imp_error
  refine fun _ _ he => Target.explains_place he fun hdest => ?_
  rw [Path.hasNull_append, htemp, hdest]
  rfl

theorem removeFile : (Workspace.call (FileTree.removeFile c.dest)).Ends w (fun _ => Callable targets)
    (fun e w' => Callable targets w' ∧ c.Explains backup e) := by
  apply h.call
  exact (removeFile_abort w.tree c.dest).imp_error fun _ _ he => Target.explains_place he id

theorem promoteDelete : (promoteDelete c).Ends w (fun _ => Callable targets)
    (fun e w' => Callable targets w' ∧ c.Explains backup e) := by
  simp only [Workspace.promoteDelete, ends_bind, ends_get]
  split
  · split
    · exact h.removeFile
    · exact h.setAside
  · exact h

theorem promoteWrite : (promoteWrite backup c).Ends w (fun _ => Callable targets)
    (fun e w' => Callable targets w' ∧ c.Explains backup e) := by
  simp only [Workspace.promoteWrite, ends_bind, ends_get]
  split
  · exact ⟨h, Target.explains_of_abort? rfl⟩
  · split
    · exact ⟨h, Target.explains_of_abort? rfl⟩
    · next temp hs =>
      have htemp := h.staged _ (Ledger.mem_of_lookup hs)
      have h : Callable targets { w with staged := w.staged.remove c.dest } :=
        ⟨fun x hx => h.staged x (Ledger.mem_remove.1 hx).1, h.trash, h.promoted⟩
      simp only [ends_bind, ends_set]
      exact (h.call (Backup.write_explains backup c w.tree)).imp_ok fun _ _ h => h.rename htemp

theorem promote (hc : c ∈ targets) (failed : List Text) :
    (Workspace.promote backup failed c).Ends w (fun _ => Callable targets)
      (fun e w' => Callable targets w' ∧ c.Explains backup e) := by
  have hdone {w : Workspace} (h : w.Callable targets) :
      Callable targets { w with promoted := w.promoted ++ [c] } :=
    ⟨h.staged, h.trash, List.forall_mem_append.2 ⟨h.promoted, List.forall_mem_singleton.2 hc⟩⟩
  unfold Workspace.promote
  split
  · exact h
  · split
    · rw [ends_bind]
      exact h.promoteDelete.imp_ok fun _ _ h => hdone h
    · rw [ends_bind]
      exact h.promoteWrite.imp_ok fun _ _ h => hdone h

theorem undo : (undo c).Ends w (fun _ => Callable targets)
    (fun e w' => Callable targets w' ∧ c.Explains backup e) := by
  simp only [Workspace.undo, ends_bind, ends_get]
  split
  · split
    · exact h.removeFile
    · exact h
  · split
    · next temp ht =>
      have htemp := h.trash _ (Ledger.mem_of_lookup ht)
      have h : Callable targets { w with trash := w.trash.remove c.dest } :=
        ⟨h.staged, fun x hx => h.trash x (Ledger.mem_remove.1 hx).1, h.promoted⟩
      exact h.rename htemp
    · split
      · apply h.call
        exact (writeFile_abort w.tree c.dest _).imp_error fun _ _ he => Target.explains_place he id
      · exact h

end Callable

end Workspace

namespace Commit

section Whole

variable {w : Workspace} {targets : List Target} {failures : List (Text × Failure)} {a : Abort}

theorem rollback_abort (backup : Option Text) (h : w.Callable targets)
    (ha : (rollback failures w).outcome = .error a) : ∃ c ∈ targets, c.Unfit backup a := by
  have hundone := Pass.run_abort Target.path (fun _ => Workspace.undo) .bestEffort []
    (Workspace.Callable targets) (Target.Unfit backup)
    (fun _ c (_ : c ∈ w.promoted.reverse) _ h => h.undo) h
  have hgiven : w.rollback.abort? = some a := by
    unfold rollback at ha
    dsimp only at ha
    split at ha
    · next hu => exact hu.trans (congrArg some (Except.error.inj ha))
    · cases ha
  obtain ⟨c, hc, hunfit⟩ := hundone.2 a hgiven
  exact ⟨c, h.promoted c (List.mem_reverse.1 hc), hunfit⟩

theorem promote_abort (h : w.Callable targets) (policy : Policy)
    (ha : (promote policy backup failures targets w).outcome = .error a) :
    ∃ c ∈ targets, c.Unfit backup a := by
  have hpromoted := Pass.run_abort Target.path (Workspace.promote backup) policy (failures.map (·.1))
    (Workspace.Callable targets) (Target.Unfit backup) (fun failed _ hc _ h => h.promote hc failed) h
  unfold promote at ha
  dsimp only at ha
  split at ha
  · next b hb =>
    obtain rfl := Except.error.inj ha
    exact hpromoted.2 b hb
  · split at ha
    · exact rollback_abort backup hpromoted.1 ha
    · cases ha

theorem atomic_abort (policy : Policy)
    (ha : (atomic t policy backup failures targets).outcome = .error a) :
    ∃ c ∈ targets, c.Unfit backup a := by
  have hstart : (Workspace.start t backup targets).Callable targets := ⟨nofun, nofun, nofun⟩
  have hstaged := Pass.run_abort Target.path (fun _ => Workspace.stage) policy []
    (Workspace.Callable targets) (Target.Unfit backup) (fun _ c (_ : c ∈ targets) _ h => h.stage) hstart
  unfold atomic at ha
  dsimp only at ha
  split at ha
  · next b hb =>
    obtain rfl := Except.error.inj ha
    exact hstaged.2 b hb
  · split at ha
    · cases ha
    · exact promote_abort hstaged.1 policy ha

theorem direct_abort (policy : Policy)
    (ha : (direct t policy backup failures targets).outcome = .error a) :
    ∃ c ∈ targets, c.Unfit backup a := by
  unfold direct at ha
  dsimp only at ha
  split at ha
  · next b hb =>
    obtain rfl := Except.error.inj ha
    refine (Pass.run_abort Target.path _ policy [] (fun _ => True) (Target.Unfit backup)
      (fun _ c _ t _ => ?_) trivial).2 b hb
    simp only [ends_adaptExcept, ends_map]
    exact (Direct.apply_explains backup c t).imp_error fun _ _ h => ⟨trivial, h⟩
  · cases ha

end Whole

/-- One of the changes is what the commit of a batch can be given up for while it is under way. -/
def Unfit (t : FileTree) (names : List Name) (changes : List Change) (options : Options) (a : Abort) :
    Prop :=
  options.dryRun = false ∧ ∃ base, t.realPath names = .ok base ∧ ∃ c ∈ changes, ∃ target,
    c.resolve t base = .ok target ∧ target.Unfit options.backupExt a

/-- The base or one of the changes is on links that lie too deep within each other to be resolved, so
that nothing of the batch is begun. -/
inductive Unresolved (t : FileTree) (names : List Name) (changes : List Change) (a : Abort) : Prop
  | base (h : t.realPath names = .error a)
  | change {base : RealPath} {c : Change} (hb : t.realPath names = .ok base) (hc : c ∈ changes)
      (h : c.resolve t base = .error (.call (.aborted a)))

variable {names : List Name} {changes : List Change} {policy : Policy} {options : Options} {a : Abort}

theorem run_given_up (ha : (run t names changes policy options).outcome = .error a) :
    (run t names changes policy options).tree = t ∧ Unresolved t names changes a ∨
      Unfit t names changes options a := by
  revert ha
  unfold run
  cases hb : t.realPath names with
  | error b =>
    intro ha
    obtain rfl := Except.error.inj ha
    exact .inl ⟨rfl, .base hb⟩
  | ok base =>
    dsimp only
    unfold runAt
    dsimp only
    generalize hpass : Pass.run policy Change.path (fun _ c => ofExcept (c.resolve t base)) [] changes () =
      resolved
    have hunfit (hdry : options.dryRun = false)
        (h : ∃ target ∈ resolved.done, target.Unfit options.backupExt a) :
        Unfit t names changes options a := by
      obtain ⟨target, htarget, hunfit⟩ := h
      obtain ⟨c, hc, hres⟩ := Pass.mem_done_ofExcept Change.path policy [] _ () (hpass ▸ htarget)
      exact ⟨hdry, base, hb, c, hc, target, hres, hunfit⟩
    cases habort : resolved.abort? with
    | some b =>
      intro ha
      obtain rfl := Except.error.inj ha
      obtain ⟨c, hc, hres⟩ := Pass.abort_ofExcept Change.path policy [] _ () (hpass ▸ habort)
      exact .inl ⟨rfl, .change hb hc hres⟩
    | none =>
      by_cases hhalted : resolved.halted policy
      · simp only [hhalted, if_true]
        exact nofun
      · cases hdry : options.dryRun with
        | true =>
          simp only [hhalted, Bool.false_eq_true, if_true, if_false]
          exact nofun
        | false =>
          simp only [hhalted, Bool.false_eq_true, if_false]
          intro ha
          split at ha
          · exact .inr (hunfit hdry (atomic_abort policy ha))
          · exact .inr (hunfit hdry (direct_abort policy ha))

/-- A commit that is given up leaves the tree as it is, unless one of its changes is unfit. -/
theorem run_abort (ha : (run t names changes policy options).outcome = .error a) :
    (run t names changes policy options).tree = t ∨ Unfit t names changes options a :=
  (run_given_up ha).imp_left And.left

end Commit

end Emend
