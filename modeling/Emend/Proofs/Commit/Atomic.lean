import Emend.Commit
import Emend.Proofs.Commit.InTurn
import Emend.Proofs.Except

namespace Emend

open EStateM FileTree

namespace Pass

variable {σ α β : Type}

theorem halted_failFast {p : Pass σ β} : p.halted .failFast = true ↔ p.failures ≠ [] := by
  simp [halted]

/-- The items that a pass has gone through before its first failure. -/
def passed (step : List Text → α → EStateM Failure σ β) (items : List α) (s : σ) : List α :=
  match items with
  | [] => []
  | a :: rest =>
    match step [] a s with
    | .ok _ s => a :: passed step rest s
    | .error _ _ => []

theorem passed_isPrefix (step : List Text → α → EStateM Failure σ β) (items : List α) (s : σ) :
    passed step items s <+: items := by
  induction items generalizing s with
  | nil => exact List.nil_prefix
  | cons a rest ih =>
    rw [passed]
    split
    · exact (List.prefix_cons_inj a).2 (ih _)
    · exact List.nil_prefix

end Pass

namespace Workspace

variable {t : FileTree} {dests : List Path} {done targets : List Target} {w w' : Workspace}
  {c : Target} {e : Failure}

theorem Prepared.settled (h : Prepared t dests done w) (hu : Unstaged w c e w') : Settled t w' := by
  have hstaged : w'.staged = w.staged := by rw [hu.eq]
  have htrash : w'.trash = w.trash := by rw [hu.eq]
  refine ⟨hu.grows.linkFree h.linkFree, fun p => (h.keptAt p).grows hu.grows, ?_⟩
  intro x hx
  rw [hstaged, htrash, h.trash, List.append_nil] at hx
  exact ⟨(h.staged x hx).plain, (h.staged x hx).absent⟩

theorem Prepared.inTurn {ready : List Target} (h : Prepared t dests targets w) (hl : t.LinkFree)
    (hroot : t.Rooted) (hpending : ∀ c ∈ targets, Path.Plain c.dest ∧ c.dest ∈ dests)
    (hagree : Target.AgreeInTurn t.file? [] ready) :
    InTurn t dests t.file? [] ready targets w where
  toSteady := h.steady
  toStocked := h.toStocked
  rewinds := by
    rw [h.promoted]
    exact rewinds_nil h.keptAt
  agrees := hagree
  pending := hpending
  found c hc := by
    obtain ⟨hplain, hdest⟩ := hpending c hc
    have hsame : w.tree.get? c.dest = t.get? c.dest ∨ t.get? c.dest = none ∧
        w.tree.get? c.dest = some .dir := by
      refine (h.added c.dest).imp_right (And.imp_right fun hadded => ?_)
      obtain ⟨-, hd⟩ | ⟨⟨x, hx, he⟩, -⟩ := hadded
      · exact hd
      · exact absurd he ((h.staged x hx).ne_dest hdest)
    ext b
    rw [file?_eq_some h.linkFree h.rooted hplain, file?_eq_some hl hroot hplain]
    obtain he | ⟨hn, hd⟩ := hsame
    · rw [he]
    · simp [hn, hd]
  setAside := by simp [h.trash]
  written := nofun

/-- The promotion succeeds, or what it leaves is settled by the rollback. -/
theorem InTurn.promoted {files : Path → Option ByteArray} {aside : List Path}
    (h : InTurn t dests files aside (Pass.passed (promote none) targets w) targets w) :
    let pass := Pass.run .failFast Target.path (promote none) [] targets w
    pass.failures = [] ∧ pass.abort? = none ∨
      (pass.state.rollback.abort? = none → Settled t pass.state.rollback.state) := by
  intro pass
  let inv (rest : List Target) (w : Workspace) : Prop :=
    ∃ files aside, InTurn t dests files aside (Pass.passed (Workspace.promote none) rest w) rest w
  let stop (_ : Failure) (w' : Workspace) : Prop :=
    ∃ w, Alike t dests w' w ∧ Rewinds t dests w w'.promoted.reverse
  have hstep : ∀ c rest w, inv (c :: rest) w →
      (promote none [] c).Ends w (fun _ => inv rest) stop := by
    rintro c rest w ⟨files, aside, h⟩
    obtain ⟨hp, hc⟩ := h.pending c List.mem_cons_self
    apply ((ends_self _ w).and (h.toSteady.promote_steps hp hc [])).mono
    · rintro _ w' ⟨hok, ⟨hfailed, -⟩ | ⟨-, v, hprom, rfl⟩⟩
      · cases hfailed
      · rw [Pass.passed, hok] at h
        exact ⟨_, _, h.promotes hprom⟩
    · rintro e w' ⟨-, hhalts, -⟩
      have hpromoted : w'.promoted = w.promoted := by cases hhalts <;> rfl
      exact ⟨w, h.alike_of_halts hhalts, hpromoted ▸ h.rewinds⟩
  obtain ⟨hf, ha, -⟩ | ⟨e, w', ⟨u, halike, hrewinds⟩, hstopped⟩ :=
    Pass.run_first Target.path (promote none) inv .failFast [] stop hstep ⟨files, aside, h⟩
  · exact .inl ⟨hf, ha⟩
  · refine .inr fun habort => ?_
    rw [show pass.state = w' from hstopped.state rfl] at habort ⊢
    exact hrewinds w' [] halike habort

end Workspace

namespace Commit

variable {t : FileTree} {targets : List Target} {s : Summary}

/-- The changes that an atomic batch promotes before it stops: none if not all are staged. -/
def promotions (t : FileTree) (targets : List Target) : List Target :=
  let staged := Pass.run .failFast Target.path (fun _ => Workspace.stage) [] targets
    (Workspace.start t none targets)
  if staged.failures.isEmpty && staged.abort?.isNone then
    Pass.passed (Workspace.promote none) targets staged.state
  else []

theorem promotions_isPrefix (t : FileTree) (targets : List Target) : promotions t targets <+: targets := by
  unfold promotions
  dsimp only
  split
  · exact Pass.passed_isPrefix _ _ _
  · exact List.nil_prefix

theorem promote_restores {dests : List Path} {w : Workspace}
    (h : Workspace.InTurn t dests t.file? [] (Pass.passed (Workspace.promote none) targets w) targets w)
    (hs : (promote .failFast none [] targets w).outcome = .ok s) (hf : s.failed ≠ []) :
    s.success = [] ∧ ∀ p, t.KeptAt (promote .failFast none [] targets w).tree p := by
  have hsettled := h.promoted
  unfold promote at hs ⊢
  simp only [List.map_nil, List.nil_append] at hs ⊢
  split at hs
  · cases hs
  · next habort =>
    split at hs
    · next hhalted =>
      have hsettled := hsettled.resolve_left fun hok => Pass.halted_failFast.1 hhalted hok.1
      simp only [hhalted, if_true]
      unfold rollback at hs ⊢
      dsimp only at hs ⊢
      split at hs
      · cases hs
      · next hundone =>
        cases hs
        exact ⟨rfl, (hsettled hundone).discard⟩
    · next hhalted =>
      rw [Pass.halted_failFast, Decidable.not_not] at hhalted
      cases hs
      rw [hhalted] at hf
      exact absurd rfl hf

/-- A batch that is given up at its first failure leaves what was there. -/
theorem atomic_restores (hl : t.LinkFree) (hroot : t.Rooted)
    (hplain : ∀ c ∈ targets, Path.Plain c.dest)
    (hagree : Target.AgreeInTurn t.file? [] (promotions t targets))
    (hs : (atomic t .failFast none [] targets).outcome = .ok s) (hf : s.failed ≠ []) :
    s.success = [] ∧ ∀ p, t.KeptAt (atomic t .failFast none [] targets).tree p := by
  -- A failure of the staging leaves nothing to undo; after it, one of the promotion is rolled back.
  obtain ⟨hempty, habort, hprepared, -⟩ | ⟨e, w', ⟨done, c, -, w, -, h, -, hu⟩, hstopped⟩ :=
    Workspace.stage_all hl hroot hplain .failFast (Workspace.start_reserves t none targets)
  · have hpending : ∀ c ∈ targets, Path.Plain c.dest ∧ c.dest ∈ targets.map Target.dest :=
      fun c hc => ⟨hplain c hc, List.mem_map_of_mem hc⟩
    have hhalted := mt Pass.halted_failFast.1 (not_not_intro hempty)
    rw [promotions, if_pos (by simp [hempty, habort])] at hagree
    unfold atomic at hs ⊢
    simp only [habort, hhalted, hempty, List.nil_append] at hs ⊢
    exact promote_restores (hprepared.inTurn hl hroot hpending hagree) hs hf
  · have hsettled := h.settled hu
    unfold atomic at hs ⊢
    simp only [List.nil_append, hstopped.state rfl] at hs ⊢
    split at hs
    · cases hs
    · next habort =>
      have hne : e.abort? = none := by
        cases ha : e.abort? with
        | none => rfl
        | some a => rw [hstopped.abort a ha] at habort; cases habort
      have hhalted := Pass.halted_failFast.2 (hstopped.failures hne)
      simp only [hhalted, if_true] at hs ⊢
      rw [← Except.ok.inj hs]
      exact ⟨rfl, hsettled.discard⟩

section Options

variable {changes : List Change} {options : Options} (hatomic : options.atomic = true)
  (hbackup : options.backupExt = none) (hl : t.LinkFree) (hroot : t.Rooted)
include hatomic hbackup hl hroot

theorem runAt_restores {base : RealPath} (hb : Path.Plain base.path)
    (hagree : ∀ targets, changes.map (Change.resolve t base) = targets.map .ok →
      Target.AgreeInTurn t.file? [] (promotions t targets))
    (hs : (runAt t base changes .failFast options).outcome = .ok s) (hf : s.failed ≠ []) :
    (options.dryRun = false → s.success = []) ∧
      ∀ p, t.KeptAt (runAt t base changes .failFast options).tree p := by
  unfold runAt at hs ⊢
  simp only [hatomic, hbackup] at hs ⊢
  split at hs
  · cases hs
  · next habort =>
    split at hs
    · next hhalted =>
      simp only [hhalted, if_true]
      rw [← Except.ok.inj hs]
      exact ⟨fun _ => rfl, fun p => .inl rfl⟩
    · next hhalted =>
      have hempty := Decidable.not_not.1 (mt Pass.halted_failFast.2 hhalted)
      have hdone := Pass.run_done Change.path (fun _ c => ofExcept (c.resolve t base)) .failFast []
        (Change.resolve t base) .ok (fun _ _ _ _ _ => Pass.ofExcept_eq_ok) hempty habort
      simp only [hhalted, hempty] at hs ⊢
      cases hdry : options.dryRun with
      | true => exact ⟨nofun, fun p => .inl rfl⟩
      | false =>
        simp only [hdry] at hs ⊢
        have hplain : ∀ c ∈ (Pass.run .failFast Change.path
            (fun _ c => ofExcept (c.resolve t base)) [] changes ()).done, Path.Plain c.dest := by
          intro c hc
          have hmem : Except.ok c ∈ changes.map (Change.resolve t base) := by
            rw [hdone]
            exact List.mem_map_of_mem hc
          obtain ⟨change, -, hresolve⟩ := List.mem_map.1 hmem
          exact Change.resolve_plain hl hb hresolve
        obtain ⟨hsuccess, hkept⟩ := atomic_restores hl hroot hplain (hagree _ hdone) hs hf
        exact ⟨fun _ => hsuccess, hkept⟩

theorem run_restores {names : List Name}
    (hagree : ∀ base targets, t.realPath names = .ok base →
      changes.map (Change.resolve t base) = targets.map .ok →
      Target.AgreeInTurn t.file? [] (promotions t targets))
    (hs : (run t names changes .failFast options).outcome = .ok s) (hf : s.failed ≠ []) :
    (options.dryRun = false → s.success = []) ∧
      ∀ p, t.KeptAt (run t names changes .failFast options).tree p := by
  obtain ⟨r, hr⟩ := realPath_of_run hs
  obtain rfl := realPath_eq_ok hl hr
  have hb : Path.Plain (Path.walk [] names) := Path.plain_nil.walk names
  rw [run_eq_runAt hr] at hs ⊢
  exact runAt_restores hatomic hbackup hl hroot hb (fun targets => hagree _ targets hr) hs hf

/-- If an atomic batch stops at a failure, all that was in the tree is in it as it was, and only
directories and temporary files may have been added. Each change that is promoted has to be right about the
file that it finds when its turn comes, as the earlier ones have left it. -/
theorem run_takes_back (names : List Name) (changes : List Change)
    (hagree : ∀ base targets, t.realPath names = .ok base →
      changes.map (Change.resolve t base) = targets.map .ok →
      Target.AgreeInTurn t.file? [] (promotions t targets))
    (hs : (run t names changes .failFast options).outcome = .ok s) (hf : s.failed ≠ []) :
    let after := (run t names changes .failFast options).tree
    (∀ p e, t.get? p = some e → after.get? p = some e) ∧
      ∀ p e, after.get? p = some e → t.get? p = some e ∨ e = .dir ∨ IsTemp p ∧ ∃ b, e = .file b := by
  have hkept := (run_restores hatomic hbackup hl hroot hagree hs hf).2
  exact ⟨fun p e => (hkept p).get?_eq_some, fun p e => (hkept p).eq_some_or⟩

end Options

/-- One file is set aside and another is deleted by its text, and each is made anew, before a change finds
no file to modify. A change behind that one is wrong on what it would find, which does not matter. -/
theorem run_takes_back_remade :
    let t := (FileTree.empty.put ["a".toList] (.file "x\n".toUTF8)).put ["b".toList]
      (.file "y\n".toUTF8)
    let changes : List Change :=
      [⟨.delete, "a".toList, none, none⟩, ⟨.create, "a".toList, some "new\n".toList, none⟩,
        ⟨.delete, "b".toList, none, some "y\n".toList⟩, ⟨.create, "b".toList, some [], none⟩,
        ⟨.modify, "c".toList, some "z".toList, none⟩, ⟨.delete, "a".toList, none, none⟩]
    let made := run t [] changes .failFast { policy := some .failFast, atomic := true }
    made.outcome.map Summary.failed = .ok ["c".toList] ∧
      (∀ p e, t.get? p = some e → made.tree.get? p = some e) ∧
      ∀ p e, made.tree.get? p = some e →
        t.get? p = some e ∨ e = .dir ∨ IsTemp p ∧ ∃ b, e = .file b := by
  intro t changes made
  have hlinks : t.LinkFree := (linkFree_empty.put (by simp) (by simp)).put (by simp) (by simp)
  have hroot : t.Rooted := by
    have ha : (FileTree.empty.put ["a".toList] (.file "x\n".toUTF8)).Rooted :=
      rooted_empty.put (p := []) rfl (by decide)
    exact ha.put (p := []) rfl (by decide)
  have hfailed : made.outcome.map Summary.failed = .ok ["c".toList] := by decide +kernel
  obtain ⟨s, hs, hf⟩ := Except.map_eq_ok.1 hfailed
  have hagree : ∀ base targets, t.realPath [] = .ok base →
      changes.map (Change.resolve t base) = targets.map .ok →
      Target.AgreeInTurn t.file? [] (promotions t targets) := by
    intro base targets hbase htargets
    obtain rfl := realPath_eq_ok hlinks hbase
    have hplaces : changes.map (Change.resolve t ⟨[], false⟩) =
        (changes.map fun c => (⟨c, [c.path]⟩ : Target)).map .ok := by decide +kernel
    rw [(List.map_inj_right fun _ _ => Except.ok.inj).1 (htargets.symm.trans hplaces)]
    decide +kernel
  exact ⟨hfailed, run_takes_back rfl rfl hlinks hroot [] changes hagree hs (by simp [hf])⟩

/-- Not every batch is taken back: a file is not restored whose text the change did not give. -/
theorem not_run_takes_back_unknown :
    ¬∀ (t : FileTree) (names : List Name) (changes : List Change) (s : Summary), t.LinkFree → t.Rooted →
      let made := run t names changes .failFast { policy := some .failFast, atomic := true }
      made.outcome = .ok s → s.failed ≠ [] →
        ∀ p b, t.get? p = some (.file b) → made.tree.get? p = some (.file b) := by
  intro h
  let t := FileTree.empty.put ["a".toList] (.file "x\n".toUTF8)
  let changes : List Change :=
    [⟨.modify, "a".toList, some "y\n".toList, none⟩, ⟨.modify, "b".toList, some "z".toList, none⟩]
  let made := run t [] changes .failFast { policy := some .failFast, atomic := true }
  have hlinks : t.LinkFree := linkFree_empty.put (by simp) (by simp)
  have hroot : t.Rooted := rooted_empty.put (p := []) rfl (by decide)
  have hfailed : made.outcome.map Summary.failed = .ok ["b".toList] := by decide +kernel
  obtain ⟨s, hs, hf⟩ := Except.map_eq_ok.1 hfailed
  have hlost : made.tree.get? ["a".toList] = some (.file "y\n".toUTF8) := by decide +kernel
  have hkept := h t [] changes s hlinks hroot hs (by simp [hf]) ["a".toList] "x\n".toUTF8
    (by decide +kernel)
  rw [show (run t [] changes .failFast _).tree.get? ["a".toList] = _ from hlost] at hkept
  revert hkept
  decide +kernel

end Commit

end Emend
