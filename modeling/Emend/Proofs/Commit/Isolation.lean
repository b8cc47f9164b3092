import Mathlib.Data.List.Nodup
import Emend.Proofs.Commit.Success
import Emend.Proofs.Except

namespace Emend

open EStateM FileTree

theorem FileTree.SameFile.file?_eq {t t' : FileTree} {p : Path} (h : t.SameFile t' p)
    (hl : t.LinkFree) (hroot : t.Rooted) (hl' : t'.LinkFree) (hroot' : t'.Rooted)
    (hp : Path.Plain p) : t'.file? p = t.file? p := by
  ext b
  rw [file?_eq_some hl' hroot' hp, file?_eq_some hl hroot hp, h b]

/-- The changes in `done` have been made in the tree and those in `rest` can still be made. No other
change has done anything to the file at its place, and elsewhere nothing is lost. -/
structure Isolated (t : FileTree) (targets done rest : List Target) (failed : List Text)
    (t' : FileTree) : Prop where
  plain : ∀ c ∈ targets, Path.Plain c.dest
  distinct : targets.Pairwise fun c c' => c.path ≠ c'.path ∧ c.dest ≠ c'.dest
  order : (done ++ rest).Sublist targets
  linkFree : t'.LinkFree
  rooted : t'.Rooted
  spared : ∀ c ∈ done, c.path ∉ failed
  made : ∀ c ∈ done, t'.file? c.dest = c.made
  pending : ∀ c ∈ targets, c ∉ done → t.SameFile t' c.dest
  others : ∀ p ∉ targets.map Target.dest, t.KeptAt t' p

namespace Isolated

variable {t t₁ t₂ : FileTree} {targets done rest : List Target} {failed : List Text} {c c' : Target}

theorem start (hl : t.LinkFree) (hroot : t.Rooted) (hplain : ∀ c ∈ targets, Path.Plain c.dest)
    (hdistinct : targets.Pairwise fun c c' => c.path ≠ c'.path ∧ c.dest ≠ c'.dest)
    (failed : List Text) : Isolated t targets [] targets failed t where
  plain := hplain
  distinct := hdistinct
  order := List.Sublist.refl targets
  linkFree := hl
  rooted := hroot
  spared := nofun
  made := nofun
  pending _ _ _ := .of_eq rfl
  others _ _ := .inl rfl

theorem mem_targets (h : Isolated t targets done (c :: rest) failed t₁) : c ∈ targets :=
  h.order.subset (by simp)

theorem ne_of_mem (h : Isolated t targets done (c :: rest) failed t₁) (hc' : c' ∈ done) :
    c'.path ≠ c.path ∧ c'.dest ≠ c.dest :=
  (List.pairwise_append.1 (h.distinct.sublist h.order)).2.2 c' hc' c List.mem_cons_self

theorem eq_of_dest (h : Isolated t targets done rest failed t₁) (hc : c ∈ targets) (hc' : c' ∈ targets)
    (he : c.dest = c'.dest) : c = c' :=
  List.inj_on_of_nodup_map (List.pairwise_map.2 (h.distinct.imp And.right)) hc hc' he

theorem skip (h : Isolated t targets done (c :: rest) failed t₁) :
    Isolated t targets done rest failed t₁ :=
  { h with order := ((List.sublist_cons_self c rest).append_left done).trans h.order }

theorem step (h : Isolated t targets done rest failed t₁) (hl : t₂.LinkFree) (hroot : t₂.Rooted)
    (hdests : ∀ p ∈ targets.map Target.dest, t₁.SameFile t₂ p)
    (hothers : ∀ p ∉ targets.map Target.dest, t.KeptAt t₂ p) :
    Isolated t targets done rest failed t₂ where
  plain := h.plain
  distinct := h.distinct
  order := h.order
  linkFree := hl
  rooted := hroot
  spared := h.spared
  made c hc := by
    have hmem : c ∈ targets := h.order.subset (List.mem_append_left _ hc)
    rw [(hdests _ (List.mem_map_of_mem hmem)).file?_eq h.linkFree h.rooted hl hroot (h.plain c hmem)]
    exact h.made c hc
  pending c hc hnot := (h.pending c hc hnot).trans (hdests _ (List.mem_map_of_mem hc))
  others := hothers

theorem fail (h : Isolated t targets done (c :: rest) failed t₁) :
    Isolated t targets done rest (failed ++ [c.path]) t₁ := by
  refine { h.skip with spared := fun c' hc' hmem => ?_ }
  obtain hmem | hmem := List.mem_append.1 hmem
  · exact h.spared c' hc' hmem
  · exact (h.ne_of_mem hc').1 (List.mem_singleton.1 hmem)

/-- A change is made where it has not failed. It does nothing to the places of others. -/
theorem make (h : Isolated t targets done (c :: rest) failed t₁) (hc : c.path ∉ failed)
    (hl : t₂.LinkFree) (hroot : t₂.Rooted) (hmade : t₂.file? c.dest = c.made)
    (hdests : ∀ p ∈ targets.map Target.dest, p ≠ c.dest → t₁.SameFile t₂ p)
    (hothers : ∀ p ∉ targets.map Target.dest, t.KeptAt t₂ p) :
    Isolated t targets (done ++ [c]) rest failed t₂ where
  plain := h.plain
  distinct := h.distinct
  order := by
    rw [List.append_assoc]
    exact h.order
  linkFree := hl
  rooted := hroot
  spared := List.forall_mem_append.2 ⟨h.spared, List.forall_mem_singleton.2 hc⟩
  made := by
    refine List.forall_mem_append.2 ⟨fun c' hc' => ?_, List.forall_mem_singleton.2 hmade⟩
    have hmem : c' ∈ targets := h.order.subset (List.mem_append_left _ hc')
    have hsame := hdests _ (List.mem_map_of_mem hmem) (h.ne_of_mem hc').2
    rw [hsame.file?_eq h.linkFree h.rooted hl hroot (h.plain c' hmem)]
    exact h.made c' hc'
  pending c' hc' hnot := by
    rw [List.mem_append, List.mem_singleton, not_or] at hnot
    have hne : c'.dest ≠ c.dest := fun he => hnot.2 (h.eq_of_dest hc' h.mem_targets he)
    exact (h.pending c' hc' hnot.1).trans (hdests _ (List.mem_map_of_mem hc') hne)
  others := hothers

end Isolated

namespace Workspace

variable {t : FileTree} {targets rest : List Target} {failed : List Text} {c : Target}
  {v w w' : Workspace} {dests : List Path} {cs : List Target} {e : Failure}

theorem Stored.stages (h : Stored cs w) (hc : c ∈ cs) (hs : Stages w c w') : Stored cs w' := by
  cases hs with
  | skip ha => exact h
  | write ha _ ho _ hd =>
    exact ((h.grows ho.grows).write ha hd).subset (List.cons_subset.2 ⟨hc, List.Subset.refl cs⟩)

theorem Stored.unstaged (h : Stored cs w) (hu : Unstaged w c e w') : Stored cs w' := by
  rw [hu.eq]
  exact h.grows hu.grows

theorem Stored.halts (h : Stored cs w) (hh : Halts w c w') : Stored cs w' := by
  refine h.mono fun x hx => ?_
  cases hh with
  | same => exact ⟨hx, rfl⟩
  | unstaged => exact ⟨(Ledger.mem_remove.1 hx).1, rfl⟩
  | drawn hd => exact ⟨hx, hd.get?_put_of_ne (h.ne_of_free hd.free hx)⟩

theorem Steady.grownAt_of_stages (h : Steady t dests w) (hs : Stages w c w') {p : Path}
    (hp : p ∈ dests) : w.tree.GrownAt w'.tree p := by
  cases hs with
  | skip ha => exact .inl rfl
  | @write t temp ha hs ho hroom hd =>
    have hsame := hd.get?_put_of_ne (e := .file c.bytes) (hd.ne (h.reserves p hp))
    exact (ho.grows.grownAt p).imp hsame.trans (And.imp_right hsame.trans)

theorem Steady.get?_of_halts (h : Steady t dests w) (hh : Halts w c w') {p : Path} (hp : p ∈ dests) :
    w'.tree.get? p = w.tree.get? p := by
  cases hh with
  | same => rfl
  | unstaged => rfl
  | drawn hd => exact hd.get?_put_of_ne (hd.ne (h.reserves p hp))

/-- Some of the changes have been promoted and those in `rest` may be, whatever has failed. -/
structure Underway (t : FileTree) (targets rest : List Target) (failed : List Text) (w : Workspace) :
    Prop extends Steady t (targets.map Target.dest) w, Stored targets w where
  isolated : Isolated t targets w.promoted rest failed w.tree

namespace Underway

theorem step (h : Underway t targets rest failed w) (hpromoted : w'.promoted = w.promoted)
    (hsteady : Steady t (targets.map Target.dest) w') (hstored : Stored targets w')
    (hdests : ∀ p ∈ targets.map Target.dest, w.tree.SameFile w'.tree p) :
    Underway t targets rest failed w' where
  toSteady := hsteady
  toStored := hstored
  isolated := by
    rw [hpromoted]
    exact h.isolated.step hsteady.linkFree hsteady.rooted hdests hsteady.kept

theorem stage (h : Underway t targets rest failed w) (hc : c ∈ targets) :
    (Workspace.stage c).Ends w (fun _ w' => Underway t targets rest failed w')
      (fun _ w' => Underway t targets rest failed w') := by
  apply (stage_steps h.linkFree (h.isolated.plain c hc)).mono
  · intro _ w' hs
    apply h.step (by cases hs <;> rfl) (h.toSteady.stages hs) (h.toStored.stages hc hs)
    exact fun p hp => (h.grownAt_of_stages hs hp).sameFile
  · intro e w' hu
    apply h.step (by rw [hu.eq]) (h.toSteady.unstaged hu) (h.toStored.unstaged hu)
    exact fun p _ => (hu.grows.grownAt p).sameFile

theorem skip (h : Underway t targets (c :: rest) failed w) : Underway t targets rest failed w :=
  { h with isolated := h.isolated.skip }

theorem halts (h : Underway t targets (c :: rest) failed w) (hh : Halts w c w') :
    Underway t targets rest (failed ++ [c.path]) w' := by
  have hfailed : Underway t targets rest (failed ++ [c.path]) w := { h with isolated := h.isolated.fail }
  apply hfailed.step (by cases hh <;> rfl) (h.toSteady.halts hh) (h.toStored.halts hh)
  exact fun p hp => .of_eq (h.get?_of_halts hh hp)

theorem promotes (h : Underway t targets (c :: rest) failed w) (hfailed : c.path ∉ failed)
    (hprom : Promotes w c v) :
    Underway t targets rest failed { v with promoted := v.promoted ++ [c] } := by
  have hmem := h.isolated.mem_targets
  have hc : c.dest ∈ targets.map Target.dest := List.mem_map_of_mem hmem
  have hsteady := hprom.steady h.toSteady hc
  have hstored := h.toStored.mono fun x hx => hprom.get?_staged h.toSteady hc h.toStored hx
  have hpromoted : v.promoted = w.promoted := by cases hprom <;> rfl
  -- What is staged at the place of the change is its own content, as no other is made there.
  have hstaged (_ : c.Writes) (temp : Path) (hl : w.staged.lookup c.dest = some temp) :
      w.tree.get? temp = some (.file c.bytes) := by
    obtain ⟨c', hc', -, he, hb⟩ := h.content _ (Ledger.mem_of_lookup hl)
    obtain rfl := h.isolated.eq_of_dest hc' hmem he
    exact hb
  refine ⟨{ hsteady with }, { hstored with }, ?_⟩
  rw [hpromoted]
  exact h.isolated.make hfailed hsteady.linkFree hsteady.rooted
    (hprom.file?_dest h.toSteady hc hstaged (h.isolated.plain c hmem))
    (fun p hp hne => .of_eq (hprom.get?_of_mem h.toSteady hp hne)) hsteady.kept

theorem promote (h : Underway t targets (c :: rest) failed w) :
    (Workspace.promote none failed c).Ends w (fun _ w' => Underway t targets rest failed w')
      (fun _ w' => Underway t targets rest (failed ++ [c.path]) w') := by
  have hmem := h.isolated.mem_targets
  apply (h.toSteady.promote_steps (h.isolated.plain c hmem) (List.mem_map_of_mem hmem) failed).mono
  · rintro - w' (⟨-, rfl⟩ | ⟨hfailed, v, hprom, rfl⟩)
    · exact h.skip
    · exact h.promotes hfailed hprom
  · exact fun _ w' hhalts => h.halts hhalts.1

theorem discard (h : Underway t targets rest failed w) :
    Isolated t targets w.promoted rest failed w.discard := by
  have hplain : ∀ x ∈ w.staged ++ w.trash, Path.Plain x.2 := fun _ => h.plain_tracked
  apply h.isolated.step (linkFree_discard h.linkFree hplain) (rooted_discard h.linkFree hplain h.rooted)
  · exact fun p hp => .of_eq (h.get?_discard hp)
  · intro p hp
    obtain he | ⟨⟨x, hx, rfl⟩, hn⟩ := discard_cases h.linkFree hplain p
    · exact (h.kept p hp).congr he
    · obtain ⟨kind, ht⟩ := h.exists_tracked hx
      exact .inl (hn.trans ht.absent.symm)

end Underway

end Workspace

namespace Change

variable {t : FileTree} {base : RealPath} {c : Change}

def place (base : RealPath) (c : Change) : Path := base.path.walk (Path.pieces c.path)

theorem place_of_resolve {target : Target} (hl : t.LinkFree) (hb : Path.Plain base.path)
    (h : c.resolve t base = .ok target) : target.dest = c.place base :=
  (Path.resolve?_eq_some.1 (RealPath.resolve?_eq_some (resolve_eq_ok hl hb h).2)).2.symm

end Change

namespace Commit

variable {t : FileTree} {base : RealPath} {options : Options} {failures : List (Text × Failure)}
  {targets : List Target} {changes : List Change} {s : Summary}

section Whole

variable (hl : t.LinkFree) (hroot : t.Rooted) (hplain : ∀ c ∈ targets, Path.Plain c.dest)
  (hdistinct : targets.Pairwise fun c c' => c.path ≠ c'.path ∧ c.dest ≠ c'.dest)
include hl hroot hplain hdistinct

theorem staged_underway (failed : List Text) :
    Workspace.Underway t targets targets failed (staged none t .bestEffort targets).state := by
  have hstart : Workspace.Underway t targets targets failed (Workspace.start t none targets) :=
    { (Workspace.prepared_start hl hroot (Workspace.start_reserves t none targets)).steady with
      content := nofun
      apart := nofun
      isolated := .start hl hroot hplain hdistinct failed }
  exact Pass.run_keeps Target.path (fun _ => Workspace.stage) .bestEffort []
    (Workspace.Underway t targets targets failed) (fun _ _ hc _ h => h.stage hc) hstart

theorem atomic_isolates (hs : (atomic t .bestEffort none failures targets).outcome = .ok s) :
    ∃ done, s.success = done.map Target.path ∧
      Isolated t targets done [] s.failed (atomic t .bestEffort none failures targets).tree := by
  have hstaged := staged_underway hl hroot hplain hdistinct
  unfold atomic promote at hs ⊢
  simp only [Pass.halted_bestEffort, Bool.false_eq_true, if_false] at hs ⊢
  split at hs
  · cases hs
  · split at hs
    · cases hs
    · next hpromoted =>
      cases hs
      have h := Pass.run_bestEffort Target.path (Workspace.promote none)
        (fun rest (_ : List Unit) failed w => Workspace.Underway t targets rest failed w)
        (fun _ _ _ _ _ h => h.promote) [] _ (hstaged _) hpromoted
      refine ⟨_, rfl, ?_⟩
      simpa [Summary.of, hpromoted] using h.discard

theorem direct_isolates (hfresh : ∀ c ∈ targets, c.path ∉ failures.map (·.1))
    (hs : (direct t .bestEffort none failures targets).outcome = .ok s) :
    ∃ done, s.success = done.map Target.path ∧
      Isolated t targets done [] s.failed (direct t .bestEffort none failures targets).tree := by
  let keep (rest : List Target) (paths failed : List Text) (t' : FileTree) : Prop :=
    ∃ done, paths = done.map Target.path ∧ (∀ c ∈ rest, c.path ∉ failures.map (·.1) ++ failed) ∧
      Isolated t targets done rest (failures.map (·.1) ++ failed) t'
  have hstep : ∀ c rest paths failed t', keep (c :: rest) paths failed t' →
      (directStep none [] c).Ends t' (fun path => keep rest (paths ++ [path]) failed)
        (fun _ => keep rest paths (failed ++ [c.path])) := by
    rintro c rest _ failed t' ⟨done, rfl, hnew, h⟩
    obtain ⟨hc, hnew⟩ := List.forall_mem_cons.1 hnew
    have hp := h.plain c h.mem_targets
    simp only [directStep, ends_adaptExcept, ends_map]
    apply (Direct.apply_steps h.linkFree hp).mono
    · intro _ t'' ha
      refine ⟨done ++ [c], by simp, hnew, ?_⟩
      apply h.make hc (ha.linkFree h.linkFree) (ha.rooted h.rooted) (ha.file?_dest h.linkFree h.rooted hp)
      · exact fun p _ hne => (ha.grownAt hne).sameFile
      · intro p hnot
        have hne : p ≠ c.dest := fun he => hnot (he ▸ List.mem_map_of_mem h.mem_targets)
        exact (h.others p hnot).grown (ha.grownAt hne)
    · rintro _ t'' ⟨hg, hroot', -⟩
      refine ⟨done, rfl, fun c' hc' hmem => ?_, ?_⟩
      · have hne := (List.pairwise_append.1 (h.distinct.sublist h.order)).2.1
        rw [← List.append_assoc, List.mem_append, List.mem_singleton] at hmem
        obtain hmem | hmem := hmem
        · exact hnew c' hc' hmem
        · exact ((List.pairwise_cons.1 hne).1 c' hc').1 hmem.symm
      · rw [← List.append_assoc]
        exact h.fail.step (hg.linkFree h.linkFree) (hroot' h.rooted)
          (fun p _ => (hg.grownAt p).sameFile) fun p hnot => (h.others p hnot).grows hg
  unfold direct at hs ⊢
  simp only at hs ⊢
  split at hs
  · cases hs
  · next hmade =>
    cases hs
    have hstart : keep targets [] [] t :=
      ⟨[], rfl, by simpa using hfresh, .start hl hroot hplain hdistinct _⟩
    obtain ⟨done, hdone, -, h⟩ :=
      Pass.run_bestEffort Target.path (directStep none) keep hstep [] [] hstart hmade
    unfold directStep at hdone h
    exact ⟨done, hdone, by simpa [Summary.of, hmade] using h⟩

end Whole

section Options

variable (hl : t.LinkFree) (hroot : t.Rooted)
  (hdistinct : changes.Pairwise fun c c' => c.path ≠ c'.path ∧ c.place base ≠ c'.place base)
include hl hdistinct

theorem resolved_targets (hb : Path.Plain base.path)
    (hn : (resolved t base .bestEffort changes).abort? = none) :
    let p := resolved t base .bestEffort changes
    (∀ c ∈ p.done, c.change ∈ changes ∧ c.dest = c.change.place base) ∧
      (∀ c ∈ changes, ∀ target, c.resolve t base = .ok target → target ∈ p.done) ∧
      (∀ c ∈ p.done, Path.Plain c.dest) ∧
      (p.done.Pairwise fun c c' => c.path ≠ c'.path ∧ c.dest ≠ c'.dest) ∧
      ∀ c ∈ p.done, c.path ∉ p.failures.map (·.1) := by
  intro p
  obtain ⟨as, has, hmap⟩ :=
    Pass.done_ofExcept Change.path .bestEffort [] (Change.resolve t base) changes ()
  obtain ⟨hchanges, hres⟩ := Change.change_resolve_all hmap
  obtain ⟨hdone, hfailed⟩ := Pass.bestEffort_ofExcept Change.path (Change.resolve t base) () hn
  have hmem : ∀ c ∈ p.done, c.change ∈ changes := fun c hc =>
    has.subset (hchanges ▸ List.mem_map_of_mem hc)
  have hplace : ∀ c ∈ p.done, c.dest = c.change.place base := fun c hc =>
    Change.place_of_resolve hl hb (hres c hc)
  refine ⟨fun c hc => ⟨hmem c hc, hplace c hc⟩, hdone,
    fun c hc => Change.resolve_plain hl hb (hres c hc), ?_, fun c hc hfail => ?_⟩
  · have htargets := hdistinct.sublist has
    rw [← hchanges, List.pairwise_map] at htargets
    refine htargets.imp_of_mem fun hc hc' hne => ⟨hne.1, ?_⟩
    rw [hplace _ hc, hplace _ hc']
    exact hne.2
  · obtain ⟨c', hc', hpath, e, he⟩ := hfailed c.path hfail
    have hnodup : (changes.map Change.path).Nodup := List.pairwise_map.2 (hdistinct.imp And.left)
    obtain rfl := List.inj_on_of_nodup_map hnodup hc' (hmem c hc) hpath
    rw [hres c hc] at he
    cases he

include hroot

theorem runAt_isolates (hdry : options.dryRun = false) (hbackup : options.backupExt = none)
    (hb : Path.Plain base.path) (hs : (runAt t base changes .bestEffort options).outcome = .ok s) :
    ∃ targets done, (∀ c ∈ targets, c.change ∈ changes ∧ c.dest = c.change.place base) ∧
      (∀ c ∈ changes, ∀ target, c.resolve t base = .ok target → target ∈ targets) ∧
      s.success = done.map Target.path ∧
      Isolated t targets done [] s.failed (runAt t base changes .bestEffort options).tree := by
  unfold runAt at hs ⊢
  simp only [hdry, hbackup, Pass.halted_bestEffort, Bool.false_eq_true, if_false] at hs ⊢
  split at hs
  · cases hs
  · next habort =>
    obtain ⟨htargets, hall, hplain, hdistinct, hfresh⟩ := resolved_targets hl hdistinct hb habort
    refine ⟨(resolved t base .bestEffort changes).done, ?_⟩
    cases hatomic : options.atomic with
    | true =>
      simp only [hatomic, if_true] at hs ⊢
      obtain ⟨done, hsuccess, h⟩ := atomic_isolates hl hroot hplain hdistinct hs
      exact ⟨done, htargets, hall, hsuccess, h⟩
    | false =>
      simp only [hatomic, Bool.false_eq_true, if_false] at hs ⊢
      obtain ⟨done, hsuccess, h⟩ := direct_isolates hl hroot hplain hdistinct hfresh hs
      exact ⟨done, htargets, hall, hsuccess, h⟩

end Options

/-- If a batch goes on after failures, what is reported as made has been made, and what has failed has left
the file at its place, or its absence. So it is wherever no change is made, but for temporary files. The
changes have to be at paths and at places of their own. -/
theorem run_isolates {names : List Name} (hdry : options.dryRun = false)
    (hbackup : options.backupExt = none) (hl : t.LinkFree) (hroot : t.Rooted)
    (hb : t.realPath names = .ok base) (hpaths : (changes.map Change.path).Nodup)
    (hplaces : (changes.map (Change.place base)).Nodup)
    (hs : (run t names changes .bestEffort options).outcome = .ok s) :
    let after := (run t names changes .bestEffort options).tree
    (∀ c ∈ changes, c.path ∈ s.success →
      after.file? (c.place base) = if c.action = .delete then none else some c.text.encode) ∧
    (∀ c ∈ changes, c.path ∈ s.failed → t.SameFile after (c.place base) ∨
      (∀ target, c.resolve t base ≠ .ok target) ∧ IsTemp (c.place base) ∧
        t.get? (c.place base) = none) ∧
    ∀ p, (∀ c ∈ changes, c.place base ≠ p) → t.SameFile after p ∨ IsTemp p ∧ t.get? p = none := by
  have hplain : Path.Plain base.path := by
    rw [realPath_eq_ok hl hb]
    exact Path.plain_nil.walk names
  rw [run_eq_runAt hb] at hs ⊢
  obtain ⟨targets, done, htargets, hall, hsuccess, h⟩ := runAt_isolates hl hroot
    ((List.pairwise_map.1 hpaths).and (List.pairwise_map.1 hplaces)) hdry hbackup hplain hs
  refine ⟨fun c hc hmade => ?_, fun c hc hfailed => ?_, fun p hp => ?_⟩
  · rw [hsuccess] at hmade
    obtain ⟨target, hdone, hpath⟩ := List.mem_map.1 hmade
    have hmem : target ∈ targets := h.order.subset (by simpa using hdone)
    obtain ⟨hchange, hdest⟩ := htargets target hmem
    obtain rfl := List.inj_on_of_nodup_map hpaths hchange hc hpath
    rw [← hdest, h.made target hdone, Target.made]
    by_cases ha : target.change.action = .delete
    · rw [if_pos ha, if_neg fun hw => hw ha]
    · have hw : target.Writes := ha
      rw [if_neg ha, if_pos hw]
      rfl
  · by_cases hat : c.place base ∈ targets.map Target.dest
    · obtain ⟨target, hmem, hplace⟩ := List.mem_map.1 hat
      obtain ⟨hchange, hdest⟩ := htargets target hmem
      obtain rfl := List.inj_on_of_nodup_map hplaces hchange hc (hdest.symm.trans hplace)
      rw [← hplace]
      exact .inl (h.pending target hmem fun hdone => h.spared target hdone hfailed)
    · refine (h.others _ hat).sameFile_or.imp_right fun htemp => ⟨fun target hres => hat ?_, htemp⟩
      rw [← Change.place_of_resolve hl hplain hres]
      exact List.mem_map_of_mem (hall c hc target hres)
  · refine (h.others p fun hmem => ?_).sameFile_or
    obtain ⟨target, htarget, rfl⟩ := List.mem_map.1 hmem
    obtain ⟨hchange, hdest⟩ := htargets target htarget
    exact hp _ hchange hdest.symm

/-- Files in a directory are made, modified and deleted, while other changes fail: one is outside of
the directory, one would need a directory at a file, one has no file to modify, and one would replace a
directory. -/
theorem run_isolates_mixed :
    let t := ((((FileTree.empty.put ["r".toList] .dir).put ["r".toList, "a".toList]
      (.file "x".toUTF8)).put ["r".toList, "b".toList] (.file "y".toUTF8)).put
      ["r".toList, "c".toList] (.file "z".toUTF8)).put ["r".toList, "d".toList] .dir
    let changes : List Change := [⟨.create, "../o".toList, some "o".toList, none⟩,
      ⟨.create, "n/e/w".toList, some "new".toList, none⟩, ⟨.create, "c/e".toList, none, none⟩,
      ⟨.modify, "a".toList, some "A".toList, none⟩, ⟨.modify, "m".toList, none, none⟩,
      ⟨.create, "d".toList, none, none⟩, ⟨.delete, "b".toList, none, none⟩]
    let made := run t ["r".toList] changes .bestEffort { policy := some .bestEffort, atomic := true }
    made.outcome.map (fun s => (s.success, s.failed)) =
      .ok (["n/e/w".toList, "a".toList, "b".toList],
        ["../o".toList, "c/e".toList, "m".toList, "d".toList]) ∧
      made.tree.file? ["r".toList, "a".toList] = some (Text.encode "A".toList) ∧
      made.tree.file? ["r".toList, "b".toList] = none ∧
      t.SameFile made.tree ["r".toList, "c".toList, "e".toList] ∧
      t.SameFile made.tree ["r".toList, "c".toList] := by
  intro t changes made
  have hl : t.LinkFree :=
    ((((linkFree_empty.put (by simp) (by simp)).put (by simp) (by simp)).put (by simp) (by simp)).put
      (by simp) (by simp)).put (by simp) (by simp)
  have hroot : t.Rooted := by
    have hr := rooted_empty.put (p := []) (n := "r".toList) (e := .dir) rfl (by decide)
    have ha := hr.put (p := ["r".toList]) (n := "a".toList) (e := .file "x".toUTF8) rfl (by decide)
    have hb := ha.put (p := ["r".toList]) (n := "b".toList) (e := .file "y".toUTF8) rfl (by decide)
    have hc := hb.put (p := ["r".toList]) (n := "c".toList) (e := .file "z".toUTF8) rfl (by decide)
    exact hc.put (p := ["r".toList]) rfl (by decide)
  have hb : t.realPath ["r".toList] = .ok ⟨["r".toList], false⟩ := by decide +kernel
  have hpaths : (changes.map Change.path).Nodup := by decide +kernel
  have hplaces : (changes.map (Change.place ⟨["r".toList], false⟩)).Nodup := by decide +kernel
  have hreported : made.outcome.map (fun s => (s.success, s.failed)) =
      .ok (["n/e/w".toList, "a".toList, "b".toList],
        ["../o".toList, "c/e".toList, "m".toList, "d".toList]) := by decide +kernel
  obtain ⟨s, hs, hreport⟩ := Except.map_eq_ok.1 hreported
  obtain ⟨hsuccess, hfailed⟩ := Prod.mk.inj hreport
  obtain ⟨hmade, hleft, hothers⟩ := run_isolates rfl rfl hl hroot hb hpaths hplaces hs
  have hone := hleft ⟨.create, "c/e".toList, none, none⟩ (by simp [changes]) (by simp [hfailed])
  have htwo := hothers ["r".toList, "c".toList] (by decide +kernel)
  refine ⟨hreported, ?_, ?_, ?_, ?_⟩
  · exact hmade ⟨.modify, "a".toList, some "A".toList, none⟩ (by simp [changes]) (by simp [hsuccess])
  · exact hmade ⟨.delete, "b".toList, none, none⟩ (by simp [changes]) (by simp [hsuccess])
  · have hres : (⟨.create, "c/e".toList, none, none⟩ : Change).resolve t ⟨["r".toList], false⟩ =
        .ok ⟨⟨.create, "c/e".toList, none, none⟩, ["r".toList, "c".toList, "e".toList]⟩ := by
      decide +kernel
    exact hone.resolve_right fun h => h.1 _ hres
  · have hfile : t.get? ["r".toList, "c".toList] ≠ none := by decide +kernel
    exact htwo.resolve_right fun h => hfile h.2

end Commit

end Emend
