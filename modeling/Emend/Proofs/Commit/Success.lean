import Emend.Proofs.Commit.Promotion
import Emend.Proofs.Commit.Target
import Emend.Proofs.FileTree.Arrival

namespace Emend

open EStateM FileTree

/-- Nothing in the tree keeps the changes from being made together by way of temporary files. -/
structure Target.AllFeasible (t : FileTree) (targets : List Target) : Prop where
  each : ∀ c ∈ targets, c.Feasible t targets
  supplied : Target.Supplied t (Workspace.start t none targets).reserved targets

namespace Pass

variable {σ β : Type} {p : Pass σ β} {policy : Policy}

def Clean (p : Pass σ β) : Prop := p.failures = [] ∧ p.abort? = none

theorem Clean.not_halted (h : p.Clean) : p.halted policy = false := by
  simp [halted, h.1]

theorem Stopped.not_clean {e : Failure} {s : σ} (h : p.Stopped policy e s) : ¬p.Clean := by
  rintro ⟨hf, ha⟩
  cases he : e.abort? with
  | none => exact h.failures he hf
  | some a =>
    rw [h.abort a he] at ha
    cases ha

end Pass

namespace Commit

variable {t : FileTree} {w : Workspace} {base : RealPath} {policy : Policy} {options : Options}
  {failures : List (Text × Failure)} {targets : List Target} {changes : List Change} {s : Summary}
  {backup : Option Text}

abbrev staged (backup : Option Text) (t : FileTree) (policy : Policy) (targets : List Target) :
    Pass Workspace Unit :=
  Pass.run policy Target.path (fun _ => Workspace.stage) [] targets (Workspace.start t backup targets)

abbrev promoted (backup : Option Text) (policy : Policy) (targets : List Target) (w : Workspace) :
    Pass Workspace Unit :=
  Pass.run policy Target.path (Workspace.promote backup) [] targets w

def directStep (backup : Option Text) (_ : List Text) (c : Target) : EStateM Failure FileTree Text :=
  ((Direct.apply backup c).map fun _ => c.path).adaptExcept Failure.call

theorem directStep_path (failed : List Text) (c : Target) (t : FileTree) (path : Text) (t' : FileTree)
    (h : directStep backup failed c t = .ok path t') : c.path = path := by
  have hends : (directStep backup failed c).Ends t (fun path _ => c.path = path) (fun _ _ => True) := by
    simp only [directStep, ends_adaptExcept, ends_map]
    unfold EStateM.Ends
    split <;> trivial
  exact hends.of_ok h

abbrev resolved (t : FileTree) (base : RealPath) (policy : Policy) (changes : List Change) :
    Pass Unit Target :=
  Pass.run policy Change.path (fun _ c => ofExcept (c.resolve t base)) [] changes ()

theorem clean_of_promote (hs : (promote policy backup failures targets w).outcome = .ok s)
    (hf : s.failed = []) : failures = [] ∧ (promoted backup policy targets w).Clean := by
  unfold promote at hs
  dsimp only at hs
  split at hs
  · cases hs
  · next habort =>
    have hnone : failures ++ (Pass.run policy Target.path (Workspace.promote backup)
        (failures.map (·.1)) targets w).failures = [] := by
      split at hs
      · unfold rollback at hs
        dsimp only at hs
        split at hs
        · cases hs
        · cases hs
          exact List.map_eq_nil_iff.1 hf
      · cases hs
        exact List.map_eq_nil_iff.1 hf
    obtain ⟨rfl, hnone⟩ := List.append_eq_nil_iff.1 hnone
    exact ⟨rfl, hnone, habort⟩

theorem clean_of_atomic (hs : (atomic t policy backup failures targets).outcome = .ok s)
    (hf : s.failed = []) : failures = [] ∧ (staged backup t policy targets).Clean ∧
      (promoted backup policy targets (staged backup t policy targets).state).Clean := by
  unfold atomic at hs
  dsimp only at hs
  split at hs
  · cases hs
  · next habort =>
    split at hs
    · next hhalted =>
      cases hs
      have hnone := (List.append_eq_nil_iff.1 (List.map_eq_nil_iff.1 hf)).2
      simp [Pass.halted, hnone] at hhalted
    · obtain ⟨hnone, hclean⟩ := clean_of_promote hs hf
      obtain ⟨rfl, hnone⟩ := List.append_eq_nil_iff.1 hnone
      exact ⟨rfl, ⟨hnone, habort⟩, hclean⟩

theorem atomic_of_clean (hstaged : (staged backup t policy targets).Clean)
    (hpromoted : (promoted backup policy targets (staged backup t policy targets).state).Clean) :
    atomic t policy backup [] targets =
      let w := (promoted backup policy targets (staged backup t policy targets).state).state
      ⟨.ok (.of false (w.promoted.map Target.path) []), w.discard, []⟩ := by
  unfold atomic promote
  simp only [hstaged.1, hstaged.2, hstaged.not_halted, List.nil_append, List.map_nil, hpromoted.1,
    hpromoted.2, hpromoted.not_halted]
  rfl

theorem atomic_of_abort {a : Abort} (h : (staged backup t policy targets).abort? = some a) :
    (atomic t policy backup failures targets).outcome = .error a := by
  unfold atomic
  simp only [h]

theorem direct_of_abort {a : Abort}
    (h : (Pass.run policy Target.path (directStep backup) [] targets t).abort? = some a) :
    (direct t policy backup failures targets).outcome = .error a := by
  unfold directStep at h
  unfold direct
  simp only [h]

theorem clean_of_direct (hs : (direct t policy backup failures targets).outcome = .ok s)
    (hf : s.failed = []) :
    failures = [] ∧ (Pass.run policy Target.path (directStep backup) [] targets t).Clean := by
  unfold direct at hs
  dsimp only at hs
  split at hs
  · cases hs
  · next habort =>
    cases hs
    obtain ⟨rfl, hnone⟩ := List.append_eq_nil_iff.1 (List.map_eq_nil_iff.1 hf)
    exact ⟨rfl, hnone, habort⟩

theorem direct_of_clean (h : (Pass.run policy Target.path (directStep backup) [] targets t).Clean) :
    direct t policy backup [] targets =
      let made := Pass.run policy Target.path (directStep backup) [] targets t
      ⟨.ok (.of false made.done []), made.state, []⟩ := by
  obtain ⟨hf, ha⟩ := h
  unfold directStep at hf ha
  unfold direct directStep
  simp only [hf, ha, List.append_nil]

section Whole

variable (hl : t.LinkFree) (hroot : t.Rooted) (hplain : ∀ c ∈ targets, Path.Plain c.dest)
  (hdistinct : targets.Pairwise fun c c' => c.dest ≠ c'.dest)
include hl hroot hplain hdistinct

theorem atomic_makes (hs : (atomic t policy none failures targets).outcome = .ok s)
    (hf : s.failed = []) :
    failures = [] ∧ s.success = targets.map Target.path ∧
      Made t targets (atomic t policy none failures targets).tree ∧ Target.AllFeasible t targets := by
  obtain ⟨rfl, hstaged, hpromoted⟩ := clean_of_atomic hs hf
  have hwithin : ∀ c ∈ targets, Path.Plain c.dest ∧ c.dest ∈ targets.map Target.dest :=
    fun c hc => ⟨hplain c hc, List.mem_map_of_mem hc⟩
  obtain ⟨-, -, hprepared, hreserved⟩ | ⟨e, w', -, hstopped⟩ := Workspace.stage_all hl hroot hplain policy
      (Workspace.start_reserves t none targets)
  · have hhalfway := hprepared.halfway hl hroot hwithin hdistinct
    obtain ⟨-, -, hdone, hreserved'⟩ | ⟨e, w', -, hstopped⟩ := hhalfway.promote_all policy
    · rw [atomic_of_clean hstaged hpromoted] at hs ⊢
      cases hs
      refine ⟨rfl, congrArg _ hdone.promoted, hdone.made, hdone.feasible, fun kind dir => ?_⟩
      cases kind with
      | staged => exact hreserved ▸ hprepared.drew.spares dir
      | setAside => exact hreserved ▸ hreserved' ▸ hdone.drew.spares dir
    · exact absurd hpromoted hstopped.not_clean
  · exact absurd hstaged hstopped.not_clean

theorem direct_makes (hs : (direct t policy none failures targets).outcome = .ok s)
    (hf : s.failed = []) :
    s.success = targets.map Target.path ∧
      Made t targets (direct t policy none failures targets).tree := by
  let inv (rest : List Target) (t' : FileTree) : Prop :=
    ∃ done, targets = done ++ rest ∧ t'.LinkFree ∧ t'.Rooted ∧ Made t done t'
  have hstep : ∀ c rest t', inv (c :: rest) t' →
      (directStep none [] c).Ends t' (fun _ => inv rest) (fun _ _ => True) := by
    rintro c rest t' ⟨done, hdone, hl', hroot', hmade⟩
    have hp : Path.Plain c.dest := hplain c (by simp [hdone])
    have hnew : ∀ c' ∈ done, c'.dest ≠ c.dest := by
      rw [hdone] at hdistinct
      exact fun c' hc' => (List.pairwise_append.1 hdistinct).2.2 c' hc' c List.mem_cons_self
    simp only [directStep, ends_adaptExcept, ends_map]
    apply (Direct.apply_steps hl' hp).mono
    · intro _ t'' ha
      exact ⟨done ++ [c], by simp [hdone], ha.linkFree hl', ha.rooted hroot',
        ha.made hmade hl' hroot' hp hnew⟩
    · exact fun _ _ _ => trivial
  obtain ⟨rfl, hclean⟩ := clean_of_direct hs hf
  obtain ⟨-, -, done, hdone, -, -, hmade⟩ | ⟨e, t', -, hstopped⟩ :=
    Pass.run_first Target.path (directStep none) inv policy [] (fun _ _ => True) hstep
      ⟨[], rfl, hl, hroot, made_nil t⟩
  · obtain rfl : targets = done := by simpa using hdone
    have hall := Pass.run_done Target.path (directStep none) policy [] Target.path id directStep_path hclean.1
      hclean.2
    rw [direct_of_clean hclean] at hs ⊢
    cases hs
    rw [List.map_id] at hall
    exact ⟨hall.symm, hmade⟩
  · exact absurd hclean hstopped.not_clean

end Whole

theorem resolved_of_runAt (hs : (runAt t base changes policy options).outcome = .ok s)
    (hf : s.failed = []) :
    ∃ targets : List Target, changes.map (Change.resolve t base) = targets.map .ok := by
  unfold runAt at hs
  dsimp only at hs
  split at hs
  · cases hs
  · next habort =>
    suffices hnone : (resolved t base policy changes).failures = [] from
      ⟨_, Pass.run_done Change.path (fun _ c => ofExcept (c.resolve t base)) policy []
        (Change.resolve t base) .ok (fun _ _ _ _ _ => Pass.ofExcept_eq_ok) hnone habort⟩
    split at hs
    · next hhalted =>
      cases hs
      have hnone := List.map_eq_nil_iff.1 hf
      simp [Pass.halted, hnone] at hhalted
    · split at hs
      · cases hs
        exact (List.append_eq_nil_iff.1 (List.map_eq_nil_iff.1 hf)).1
      · dsimp only at hs
        split at hs
        · exact (clean_of_atomic hs hf).1
        · exact (clean_of_direct hs hf).1

section Options

variable (hdry : options.dryRun = false)
include hdry

theorem runAt_resolved (hres : changes.map (Change.resolve t base) = targets.map .ok) (policy : Policy) :
    let made := if options.atomic then atomic t policy options.backupExt [] targets
      else direct t policy options.backupExt [] targets
    (runAt t base changes policy options).outcome = made.outcome ∧
      (runAt t base changes policy options).tree = made.tree := by
  have hresolved := Pass.run_ofExcept Change.path policy [] (Change.resolve t base) () hres
  unfold runAt
  simp only [hresolved, hdry, Pass.halted, List.isEmpty_nil, Bool.not_true, Bool.and_false,
    Bool.false_eq_true, if_false, and_self]

section Resolved

variable (hbackup : options.backupExt = none)
include hbackup

theorem run_resolved {names : List Name} (hb : t.realPath names = .ok base)
    (hres : changes.map (Change.resolve t base) = targets.map .ok) (policy : Policy) :
    let made := if options.atomic then atomic t policy none [] targets else direct t policy none [] targets
    (run t names changes policy options).outcome = made.outcome ∧
      (run t names changes policy options).tree = made.tree := by
  have hmade := runAt_resolved hdry hres policy
  rw [hbackup] at hmade
  rw [run_eq_runAt hb]
  exact hmade

variable (hl : t.LinkFree) (hroot : t.Rooted)
include hl hroot

/-- If no failure is reported, the changes have been made where they are resolved to, provided that
these are places of their own. -/
theorem runAt_makes (hb : Path.Plain base.path)
    (hdistinct : ∀ targets : List Target, changes.map (Change.resolve t base) = targets.map .ok →
      targets.Pairwise fun c c' => c.dest ≠ c'.dest)
    (hs : (runAt t base changes policy options).outcome = .ok s) (hf : s.failed = []) :
    ∃ targets, changes.map (Change.resolve t base) = targets.map .ok ∧
      s.success = changes.map Change.path ∧ Made t targets (runAt t base changes policy options).tree ∧
      (options.atomic = true → Target.AllFeasible t targets) := by
  obtain ⟨targets, hres⟩ := resolved_of_runAt hs hf
  obtain ⟨hchanges, hplain, -⟩ := Change.resolve_all hl hb hres
  have hpaths : targets.map Target.path = changes.map Change.path := by
    rw [← hchanges, List.map_map]
    rfl
  obtain ⟨houtcome, htree⟩ := runAt_resolved hdry hres policy
  rw [houtcome, hbackup] at hs
  rw [htree, hbackup]
  cases hatomic : options.atomic with
  | true =>
    simp only [hatomic, if_true] at hs ⊢
    obtain ⟨-, hsuccess, hmade, hfeasible⟩ := atomic_makes hl hroot hplain (hdistinct _ hres) hs hf
    exact ⟨targets, hres, hsuccess.trans hpaths, hmade, fun _ => hfeasible⟩
  | false =>
    simp only [hatomic, Bool.false_eq_true, if_false] at hs ⊢
    obtain ⟨hsuccess, hmade⟩ := direct_makes hl hroot hplain (hdistinct _ hres) hs hf
    exact ⟨targets, hres, hsuccess.trans hpaths, hmade, nofun⟩

theorem run_makes {names : List Name} (hb : t.realPath names = .ok base)
    (hdistinct : ∀ targets : List Target, changes.map (Change.resolve t base) = targets.map .ok →
      targets.Pairwise fun c c' => c.dest ≠ c'.dest)
    (hs : (run t names changes policy options).outcome = .ok s) (hf : s.failed = []) :
    ∃ targets, changes.map (Change.resolve t base) = targets.map .ok ∧
      s.success = changes.map Change.path ∧ Made t targets (run t names changes policy options).tree ∧
      (options.atomic = true → Target.AllFeasible t targets) := by
  have hplain : Path.Plain base.path := realPath_plain hb
  rw [run_eq_runAt hb] at hs ⊢
  exact runAt_makes hdry hbackup hl hroot hplain hdistinct hs hf

end Resolved

end Options

end Commit

end Emend
