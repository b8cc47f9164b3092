import Emend.Commit
import Emend.Proofs.Commit.Ledger
import Emend.Proofs.Commit.Pass
import Emend.Proofs.Commit.Step
import Emend.Proofs.Commit.Target
import Emend.Proofs.Except
import Emend.Proofs.FileTree.Confined

namespace Emend

open EStateM FileTree

variable {t₀ t : FileTree} {base : Path} {backup : Option Text} {firm : Path → Prop}
  {c : Target}

/-- No link leads the change out of the base. On the path of what is there already no link is left,
unless links led in a circle, but what is made is made at the path as it stands. -/
structure Target.Contained (t : FileTree) (base : Path) (backup : Option Text) (c : Target) : Prop where
  made : c.action = .create → t.Inside base c.dest.parent ∧ t.Inside base c.dest
  found : c.action ≠ .create → c.dest ≠ base ∧ t.Clear c.dest
  /-- A copy goes into a directory that has the name of the backup. -/
  kept : ∀ ext, backup = some ext → ext ≠ [] → c.action = .modify →
    t.Inside base (Backup.names c.dest ext) ∧
      t.Inside base (Backup.names c.dest ext ++ [c.dest.getLastD []])

/-- All that a change is made with leads to places within the base. -/
structure Target.Bound (t : FileTree) (base : Path) (backup : Option Text) (c : Target) : Prop where
  plain : Path.Plain c.dest
  parent : t.Inside base c.dest.parent
  place : t.Inside base c.dest
  entry : ∀ q, t.Enters c.dest q → base <+: q ∧ (c.action ≠ .create → t.NoLink q)
  kept : ∀ ext, backup = some ext → ext ≠ [] → c.action = .modify →
    t.Inside base (Backup.names c.dest ext) ∧
      t.Inside base (Backup.names c.dest ext ++ [c.dest.getLastD []])

namespace Target

theorem Contained.bound (h : c.Contained t base backup) (hbase : base ≠ []) (hp : Path.Plain c.dest)
    (hb : base <+: c.dest) : c.Bound t base backup := by
  by_cases ha : c.action = .create
  · obtain ⟨hparent, hplace⟩ := h.made ha
    refine ⟨hp, hparent, hplace, fun q hq => ⟨?_, fun hne => absurd ha hne⟩, h.kept⟩
    exact (hparent _ hq.parent).trans (Path.parent_isPrefix q)
  · obtain ⟨hself, hclear⟩ := h.found ha
    have hbp : base <+: c.dest.parent := (Path.eq_or_prefix_parent hb).resolve_left hself.symm
    have hparent := hclear.mono (Path.parent_isPrefix c.dest)
    refine ⟨hp, hparent.inside hp.parent hbp, hclear.inside hp hb, fun q hq => ?_, h.kept⟩
    obtain rfl := hq.unique (hclear.enters hp fun he => hbase (List.prefix_nil.1 (he ▸ hb)))
    exact ⟨hb, fun _ => hclear _ (List.prefix_refl _)⟩

end Target

theorem Target.Bound.within_root (hp : Path.Plain c.dest)
    (hfound : c.action ≠ .create → ∀ q, t.Enters c.dest q → t.NoLink q) : c.Bound t [] backup where
  plain := hp
  parent := inside_nil t _
  place := inside_nil t _
  entry q hq := ⟨List.nil_prefix, fun ha => hfound ha q hq⟩
  kept _ _ _ _ := ⟨inside_nil t _, inside_nil t _⟩

section Calls

variable (hc : Confined base firm t₀ t) (h : c.Bound t₀ base backup)
include hc h

theorem Backup.write_keeps :
    (Backup.write backup c).Ends t (fun _ t' => Keeps base firm t₀ t t')
      (fun _ t' => Keeps base firm t₀ t t') := by
  unfold EStateM.Ends Backup.write
  cases hext : backup with
  | none => exact hc.keeps
  | some ext =>
    by_cases hskip : ext = [] ∨ c.action ≠ .modify ∨ !t.has c.dest
    · simp only [hskip, if_true]
      exact hc.keeps
    · simp only [hskip, if_false]
      simp only [not_or, Decidable.not_not] at hskip
      obtain ⟨hname, hcopy⟩ := h.kept ext hext hskip.1 hskip.2.1
      cases c.change.former with
      | none => exact copyFile_keeps hc hname hcopy
      | some former => exact writeFile_keeps hc hname former.encode

theorem Target.Bound.removeFile_keeps (hfirm : c.action = .create → ∀ p, ¬firm p) :
    (removeFile c.dest).Ends t (fun _ t' => Keeps base firm t₀ t t')
      (fun _ t' => Keeps base firm t₀ t t') := by
  refine FileTree.removeFile_keeps hc h.plain fun q hq => ?_
  obtain ⟨hb, hl⟩ := h.entry q hq
  exact ⟨hb, fun hf => hc.noLink (hl fun ha => hfirm ha q hf)⟩

end Calls

theorem Direct.apply_keeps (hc : Confined base (fun _ => True) t₀ t) (hbase : t₀.get? base.parent = some .dir)
    (h : c.Bound t₀ base backup) :
    (Direct.apply backup c).Ends t (fun _ t' => Keeps base (fun _ => True) t₀ t t')
      (fun _ t' => Keeps base (fun _ => True) t₀ t t') := by
  simp only [Direct.apply, ends_bind, ends_get]
  split
  · next ha =>
    split
    · exact h.removeFile_keeps hc (by simp [ha])
    · exact hc.keeps
  · simp only [ends_bind]
    apply (makeDirs_keeps hc (fun _ => trivial) h.plain.parent hbase h.parent).mono
    · intro _ t₁ h₁
      apply (Backup.write_keeps h₁.confined h).mono
      · intro _ t₂ h₂
        have h₂ := h₁.trans h₂
        apply (writeFile_keeps h₂.confined h.place c.bytes).mono
        · exact fun _ _ h₃ => h₂.trans h₃
        · exact fun _ _ h₃ => h₂.trans h₃
      · exact fun _ _ h₂ => h₁.trans h₂
    · exact fun _ _ h₁ => h₁

namespace Workspace

theorem discardFile_keeps {temp : Path} (hc : Confined base firm t₀ t) (h : Placed base t₀ t temp) :
    Keeps base firm t₀ t (discardFile t temp) := by
  have hremove := FileTree.removeFile_keeps hc h.plain fun q hq =>
    ⟨(h.enters q hq).1, fun _ => (h.enters q hq).2⟩
  unfold discardFile
  split
  · split
    · next hr => exact hremove.of_ok hr
    · next hr => exact hremove.of_error hr
  · exact hc.keeps

theorem discardFiles_keeps {temps : List Path} (hc : Confined base firm t₀ t)
    (h : ∀ temp ∈ temps, Placed base t₀ t temp) :
    Confined base firm t₀ (temps.foldl discardFile t) := by
  induction temps generalizing t with
  | nil => exact hc
  | cons temp temps ih =>
    obtain ⟨htemp, htemps⟩ := List.forall_mem_cons.1 h
    have hkeeps := discardFile_keeps hc htemp
    exact ih hkeeps.confined fun temp ht => (htemps temp ht).mono hkeeps.noLink

/-- What a commit has under way is within the base, and so is all that it goes by. -/
structure Bounded (base : Path) (firm : Path → Prop) (backup : Option Text) (t₀ : FileTree) (w : Workspace) :
    Prop where
  tree : Confined base firm t₀ w.tree
  staged : ∀ x ∈ w.staged, Placed base t₀ w.tree x.2
  trash : ∀ x ∈ w.trash, Placed base t₀ w.tree x.2
  promoted : ∀ c ∈ w.promoted, c.Bound t₀ base backup

namespace Bounded

variable {w : Workspace}

theorem loosen (h : w.Bounded base firm backup t₀) : w.Bounded base (fun _ => False) backup t₀ :=
  ⟨h.tree.loosen fun _ => False.elim, h.staged, h.trash, h.promoted⟩

theorem step (h : w.Bounded base firm backup t₀) (hk : Keeps base firm t₀ w.tree t) :
    Bounded base firm backup t₀ { w with tree := t } :=
  ⟨hk.confined, fun x hx => (h.staged x hx).mono hk.noLink,
    fun x hx => (h.trash x hx).mono hk.noLink, h.promoted⟩

theorem call {α : Type} {x : Call α} (h : w.Bounded base firm backup t₀)
    (hx : x.Ends w.tree (fun _ t => Keeps base firm t₀ w.tree t)
      (fun _ t => Keeps base firm t₀ w.tree t)) :
    (call x).Ends w (fun _ => Bounded base firm backup t₀) (fun _ => Bounded base firm backup t₀) := by
  rw [ends_call]
  apply hx.mono
  · exact fun _ _ hk => h.step hk
  · exact fun _ _ hk => h.step hk

theorem stage (h : w.Bounded base (fun _ => True) backup t₀) (hbase : t₀.get? base.parent = some .dir)
    (hc : c.Bound t₀ base backup) :
    (stage c).Ends w (fun _ => Bounded base (fun _ => True) backup t₀)
      (fun _ => Bounded base (fun _ => True) backup t₀) := by
  simp only [Workspace.stage, ends_bind, ends_get]
  split
  · exact h
  · split
    · exact h
    · simp only [ends_bind, ends_call, ends_modify]
      apply (makeDirs_keeps h.tree (fun _ => trivial) hc.plain.parent hbase hc.parent).mono
      · intro _ t₁ h₁
        apply (makeTemp_keeps h₁.confined hc.plain.parent hc.parent _ _ _).mono
        · rintro temp t₂ ⟨h₂, htemp⟩
          have h := h.step (h₁.trans h₂)
          refine ⟨h.tree, fun x hx => ?_, h.trash, h.promoted⟩
          obtain rfl | hx := Ledger.mem_of_mem_set hx
          · exact htemp
          · exact h.staged x hx
        · exact fun _ _ h₂ => h.step (h₁.trans h₂)
      · exact fun _ _ h₁ => h.step h₁

section Loose

variable (h : w.Bounded base (fun _ => False) backup t₀) (hc : c.Bound t₀ base backup)
include h

theorem rename {p q : Path} (hp : Placed base t₀ w.tree p) (hq : Path.Plain q)
    (hin : ∀ r, t₀.Enters q r → base <+: r) :
    (Workspace.call (FileTree.rename p q)).Ends w (fun _ => Bounded base (fun _ => False) backup t₀)
      (fun _ => Bounded base (fun _ => False) backup t₀) :=
  h.call (rename_keeps h.tree hp hq fun r hr => ⟨hin r hr, False.elim⟩)

include hc

theorem setAside (ha : c.action ≠ .create) :
    (setAside c.dest).Ends w (fun _ => Bounded base (fun _ => False) backup t₀)
      (fun _ => Bounded base (fun _ => False) backup t₀) := by
  simp only [Workspace.setAside, ends_bind, ends_get, ends_call, ends_modify]
  apply (makeTemp_keeps h.tree hc.plain.parent hc.parent _ _ _).mono
  · rintro temp t₁ ⟨h₁, htemp⟩
    have hdest : Placed base t₀ t₁ c.dest :=
      ⟨hc.plain, fun q hq => ⟨(hc.entry q hq).1, h₁.confined.noLink ((hc.entry q hq).2 ha)⟩⟩
    apply (rename_keeps h₁.confined hdest htemp.plain
      fun q hq => ⟨(htemp.enters q hq).1, False.elim⟩).mono
    · intro _ t₂ h₂
      have h := h.step (h₁.trans h₂)
      refine ⟨h.tree, h.staged, fun x hx => ?_, h.promoted⟩
      obtain rfl | hx := Ledger.mem_of_mem_set hx
      · exact htemp.mono h₂.noLink
      · exact h.trash x hx
    · exact fun _ _ h₂ => h.step (h₁.trans h₂)
  · exact fun _ _ h₁ => h.step h₁

theorem promoteDelete (ha : c.action ≠ .create) :
    (promoteDelete c).Ends w (fun _ => Bounded base (fun _ => False) backup t₀)
      (fun _ => Bounded base (fun _ => False) backup t₀) := by
  simp only [Workspace.promoteDelete, ends_bind, ends_get]
  split
  · split
    · exact h.call (hc.removeFile_keeps h.tree fun _ _ => not_false)
    · exact h.setAside hc ha
  · exact h

theorem promoteWrite :
    (promoteWrite backup c).Ends w (fun _ => Bounded base (fun _ => False) backup t₀)
      (fun _ => Bounded base (fun _ => False) backup t₀) := by
  simp only [Workspace.promoteWrite, ends_bind, ends_get]
  split
  · exact h
  · split
    · exact h
    · next temp hs =>
      have htemp := h.staged _ (Ledger.mem_of_lookup hs)
      have h : Bounded base (fun _ => False) backup t₀ { w with staged := w.staged.remove c.dest } :=
        ⟨h.tree, fun x hx => h.staged x (Ledger.mem_remove.1 hx).1, h.trash, h.promoted⟩
      simp only [ends_bind, ends_set, ends_call]
      apply (Backup.write_keeps h.tree hc).mono
      · intro _ t₁ h₁
        exact ends_call.1 ((h.step h₁).rename (htemp.mono h₁.noLink) hc.plain
          fun q hq => (hc.entry q hq).1)
      · exact fun _ _ h₁ => h.step h₁

theorem promote (failed : List Text) :
    (Workspace.promote backup failed c).Ends w (fun _ => Bounded base (fun _ => False) backup t₀)
      (fun _ => Bounded base (fun _ => False) backup t₀) := by
  have hdone {w : Workspace} (h : w.Bounded base (fun _ => False) backup t₀) :
      Bounded base (fun _ => False) backup t₀ { w with promoted := w.promoted ++ [c] } :=
    ⟨h.tree, h.staged, h.trash,
      List.forall_mem_append.2 ⟨h.promoted, List.forall_mem_singleton.2 hc⟩⟩
  unfold Workspace.promote
  split
  · exact h
  · split
    · next ha =>
      rw [ends_bind]
      apply (h.promoteDelete hc (by simp [ha])).mono
      · exact fun _ _ h => hdone h
      · exact fun _ _ h => h
    · rw [ends_bind]
      apply (h.promoteWrite hc).mono
      · exact fun _ _ h => hdone h
      · exact fun _ _ h => h

theorem undo :
    (undo c).Ends w (fun _ => Bounded base (fun _ => False) backup t₀)
      (fun _ => Bounded base (fun _ => False) backup t₀) := by
  simp only [Workspace.undo, ends_bind, ends_get]
  split
  · split
    · exact h.call (hc.removeFile_keeps h.tree fun _ _ => not_false)
    · exact h
  · split
    · next temp ht =>
      have htemp := h.trash _ (Ledger.mem_of_lookup ht)
      have h : Bounded base (fun _ => False) backup t₀ { w with trash := w.trash.remove c.dest } :=
        ⟨h.tree, h.staged, fun x hx => h.trash x (Ledger.mem_remove.1 hx).1, h.promoted⟩
      exact h.rename htemp hc.plain fun q hq => (hc.entry q hq).1
    · split
      · exact h.call (writeFile_keeps h.tree hc.place _)
      · exact h

omit hc

theorem rollback : Bounded base (fun _ => False) backup t₀ w.rollback.state := by
  have hpromoted := h.promoted
  refine Pass.run_keeps Target.path (fun _ => Workspace.undo) .bestEffort []
    (Bounded base (fun _ => False) backup t₀) (fun _ c hc w h => ?_) h
  exact h.undo (hpromoted c (List.mem_reverse.1 hc))

theorem discard : Confined base (fun _ => False) t₀ w.discard := by
  have hplaced : ∀ temp ∈ (w.staged ++ w.trash).map (·.2), Placed base t₀ w.tree temp := by
    intro temp ht
    obtain ⟨x, hx, rfl⟩ := List.mem_map.1 ht
    obtain hx | hx := List.mem_append.1 hx
    · exact h.staged x hx
    · exact h.trash x hx
  exact discardFiles_keeps h.tree hplaced

end Loose

end Bounded

end Workspace

namespace Change

/-- Changes are resolved to places within the base, links on the way to them or not. -/
theorem resolve_within {base : RealPath} {c : Change} {target : Target} (hb : Path.Plain base.path)
    (h : c.resolve t base = .ok target) :
    Path.Plain target.dest ∧ base.path <+: target.dest := by
  cases (resolve_cases h).2 with
  | made _ hp =>
    have hp := RealPath.resolve?_eq_some hp
    exact ⟨hb.resolve? hp, (Path.resolve?_eq_some.1 hp).1⟩
  | found _ hr hw hp => exact hp ▸ ⟨realPath_plain hr, hw.2⟩

end Change

namespace Commit

section Whole

variable {w : Workspace} {targets : List Target} {failures : List (Text × Failure)}

theorem rollback_contained (h : w.Bounded base (fun _ => False) backup t₀) :
    Confined base (fun _ => False) t₀ (rollback failures w).tree := by
  unfold rollback
  dsimp only
  split
  · exact h.rollback.tree
  · exact h.rollback.discard

variable (hbound : ∀ c ∈ targets, c.Bound t base backup)
include hbound

theorem promote_contained (h : w.Bounded base (fun _ => False) backup t) (policy : Policy) :
    Confined base (fun _ => False) t (promote policy backup failures targets w).tree := by
  have hpromoted := Pass.run_keeps Target.path (Workspace.promote backup) policy (failures.map (·.1))
    (Workspace.Bounded base (fun _ => False) backup t) (fun failed c hc _ h => h.promote (hbound c hc) failed) h
  unfold promote
  dsimp only
  split
  · exact hpromoted.tree
  · split
    · exact rollback_contained hpromoted
    · exact hpromoted.discard

variable (hroot : t.Rooted) (hbase : t.get? base.parent = some .dir)
include hroot hbase

theorem atomic_contained (policy : Policy) :
    Confined base (fun _ => False) t (atomic t policy backup failures targets).tree := by
  have hstart : (Workspace.start t backup targets).Bounded base (fun _ => True) backup t :=
    ⟨confined_refl hroot, nofun, nofun, nofun⟩
  have hstaged := Pass.run_keeps Target.path (fun _ => Workspace.stage) policy []
    (Workspace.Bounded base (fun _ => True) backup t) (fun _ c hc _ h => h.stage hbase (hbound c hc)) hstart
  unfold atomic
  dsimp only
  split
  · exact hstaged.tree.loosen fun _ => False.elim
  · split
    · exact hstaged.loosen.discard
    · exact promote_contained hbound hstaged.loosen policy

theorem direct_contained (policy : Policy) :
    Confined base (fun _ => True) t (direct t policy backup failures targets).tree := by
  have hmade := Pass.run_keeps Target.path
    (fun _ c => ((Direct.apply backup c).map fun _ => c.path).adaptExcept Failure.call) policy []
    (Confined base (fun _ => True) t) (fun _ c hc t' h => by
      simp only [ends_adaptExcept, ends_map]
      apply (Direct.apply_keeps h hbase (hbound c hc)).mono
      · exact fun _ _ hk => hk.confined
      · exact fun _ _ hk => hk.confined) (confined_refl hroot)
  unfold direct
  dsimp only
  split
  · exact hmade
  · exact hmade

end Whole

/-- Whatever comes of a commit, all that is not below its base directory stays as it is, if no link
leads one of its changes out of the base. -/
theorem run_contained {base : RealPath} {names : List Name} (hroot : t.Rooted)
    (hb : t.realPath names = .ok base) (hbase : t.get? base.path.parent = some .dir) (changes : List Change)
    (policy : Policy) (options : Options)
    (hcontained : ∀ c ∈ changes, ∀ target, c.resolve t base = .ok target →
      target.Contained t base.path options.backupExt) :
    ∀ p, ¬base.path <+: p → (run t names changes policy options).tree.get? p = t.get? p := by
  intro p hp
  have hne : base.path ≠ [] := fun he => hp (he ▸ List.nil_prefix)
  have hbound : ∀ target ∈ (Pass.run policy Change.path (fun _ c => ofExcept (c.resolve t base)) []
      changes ()).done, target.Bound t base.path options.backupExt := by
    intro target htarget
    obtain ⟨c, hc, hres⟩ := Pass.mem_done_ofExcept Change.path policy [] _ () htarget
    obtain ⟨hplain, hwithin⟩ := Change.resolve_within (realPath_plain hb) hres
    exact (hcontained c hc target hres).bound hne hplain hwithin
  rw [run_eq_runAt hb]
  unfold runAt
  dsimp only
  split
  · rfl
  · split
    · rfl
    · split
      · rfl
      · split
        · exact (atomic_contained hbound hroot hbase policy).outside p hp
        · exact (direct_contained hbound hroot hbase policy).outside p hp

/-- A file is made behind a link, and another is modified and backed up there, within the base. -/
theorem run_contained_inside_link :
    let base : Path := ["w".toList]
    let dir : Path := ["w".toList, "in".toList]
    let t := ((((FileTree.empty.put base .dir).put dir .dir).put (dir ++ ["a".toList])
      (.file "x".toUTF8)).put ["w".toList, "link".toList] (.link "in".toList)).put ["o".toList]
      (.file "y".toUTF8)
    let changes : List Change :=
      [⟨.create, "link/x".toList, some "n".toList, none⟩,
        ⟨.modify, "link/a".toList, some "b".toList, none⟩]
    let options : Options :=
      { policy := some .failFast, atomic := true, backupExt := some "bak".toList }
    let made := run t base changes .failFast options
    made.outcome.map Summary.success = .ok ["link/x".toList, "link/a".toList] ∧
      made.tree.get? (dir ++ ["x".toList]) = some (.file "n".toUTF8) ∧
      made.tree.get? (dir ++ ["a.bak".toList]) = some (.file "x".toUTF8) ∧
      ∀ p, ¬base <+: p → made.tree.get? p = t.get? p := by
  intro base dir t changes options made
  have hroot : t.Rooted := by
    have hbase : (FileTree.empty.put base .dir).Rooted :=
      rooted_empty.put (p := []) rfl (by decide)
    have hdir : ((FileTree.empty.put base .dir).put dir .dir).Rooted :=
      hbase.put (p := base) (by decide +kernel) (by decide +kernel)
    have hfile := hdir.put (p := dir) (n := "a".toList) (e := .file "x".toUTF8) (by decide +kernel)
      (by decide +kernel)
    have hlink := hfile.put (p := base) (n := "link".toList) (e := .link "in".toList)
      (by decide +kernel) (by decide +kernel)
    exact hlink.put (p := []) rfl (by decide +kernel)
  have hfree : (((FileTree.empty.put base .dir).put dir .dir).put (dir ++ ["a".toList])
      (.file "x".toUTF8)).LinkFree :=
    ((linkFree_empty.put (by decide) (by simp)).put (by decide) (by simp)).put (by decide) (by simp)
  have hclear {p : Path} (hp : ¬["w".toList, "link".toList] <+: p) : t.Clear p :=
    ((hfree.clear p).put (by decide) fun h => absurd h hp).put (by decide) (by simp)
  have hlink : t.Arrives [] ["w".toList, "link".toList] dir :=
    .down (by decide) (hclear (by decide) _ (List.prefix_refl _))
      (.link (by decide) (show t.get? _ = some (.link "in".toList) by decide +kernel)
        (.down (by decide) (hclear (by decide) _ (List.prefix_refl _)) .nil))
  have hnew : t.Arrives [] ["w".toList, "link".toList, "x".toList] (dir ++ ["x".toList]) :=
    hlink.append ((hclear (by decide)).arrives (by simp [Path.Plain]))
  have htargets : changes.map (Change.resolve t ⟨base, false⟩) =
      [.ok ⟨⟨.create, "link/x".toList, some "n".toList, none⟩, ["w".toList, "link".toList, "x".toList]⟩,
        .ok ⟨⟨.modify, "link/a".toList, some "b".toList, none⟩, dir ++ ["a".toList]⟩] := by
    decide +kernel
  have hcontained : ∀ c ∈ changes, ∀ target, c.resolve t ⟨base, false⟩ = .ok target →
      target.Contained t base options.backupExt := by
    intro c hc target htarget
    have hmem := List.mem_map_of_mem (f := Change.resolve t ⟨base, false⟩) hc
    rw [htargets, htarget, List.mem_cons, List.mem_singleton] at hmem
    obtain h | h := hmem
    · obtain rfl := Except.ok.inj h
      refine ⟨fun _ => ⟨fun p hp => ?_, fun p hp => ?_⟩, fun ha => absurd rfl ha,
        fun _ _ _ ha => nomatch ha⟩
      · exact hp.unique hlink ▸ (by decide : base <+: dir)
      · exact hp.unique hnew ▸ (by decide : base <+: dir ++ ["x".toList])
    · obtain rfl := Except.ok.inj h
      refine ⟨nofun, fun _ => ⟨by decide, hclear (by decide)⟩, fun ext hext _ _ => ?_⟩
      cases hext
      have hname : Backup.names (dir ++ ["a".toList]) "bak".toList = dir ++ ["a.bak".toList] := by
        decide +kernel
      rw [hname]
      exact ⟨(hclear (by decide)).inside (by simp [dir, Path.Plain]) (by decide),
        (hclear (by decide)).inside (by simp [dir, Path.Plain]) (by decide)⟩
  have hb : t.realPath base = .ok ⟨base, false⟩ := rfl
  exact ⟨by decide +kernel, by decide +kernel, by decide +kernel,
    run_contained hroot hb (by decide +kernel) changes .failFast options hcontained⟩

/-- A link out of the base: what is to be made behind it is made outside. -/
theorem not_run_contained_outside_link :
    ¬∀ (t : FileTree) (base : RealPath) (names : List Name) (changes : List Change) (policy : Policy)
      (options : Options), t.Rooted → t.realPath names = .ok base →
        t.get? base.path = some .dir → t.get? base.path.parent = some .dir →
        ∀ p, ¬base.path <+: p → (run t names changes policy options).tree.get? p = t.get? p := by
  intro h
  let base : Path := ["w".toList]
  let t := ((FileTree.empty.put base .dir).put ["o".toList] .dir).put ["w".toList, "link".toList]
    (.link "../o".toList)
  have hroot : t.Rooted := by
    have hbase : (FileTree.empty.put base .dir).Rooted :=
      rooted_empty.put (p := []) rfl (by decide)
    have hother := hbase.put (p := []) (n := "o".toList) (e := .dir) rfl (by decide +kernel)
    exact hother.put (p := base) (by decide +kernel) (by decide +kernel)
  have hkept := h t ⟨base, false⟩ base [⟨.create, "link/x".toList, some "n".toList, none⟩] .bestEffort
    { policy := some .bestEffort, atomic := false } hroot rfl (by decide +kernel)
    (by decide +kernel) ["o".toList, "x".toList] (by decide)
  revert hkept
  decide +kernel

end Commit

end Emend
