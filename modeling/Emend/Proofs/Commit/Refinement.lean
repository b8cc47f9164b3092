import Emend.Proofs.Commit.Success
import Emend.Proofs.Except

namespace Emend

open EStateM FileTree

namespace Pass

variable {σ τ α β γ : Type} {path : α → Text} {policy : Policy} {failed : List Text} {a : α}
  {rest : List α}

theorem Clean.cons {step : List Text → α → EStateM Failure σ β} {s : σ}
    (h : (run policy path step failed (a :: rest) s).Clean) :
    ∃ b s', step failed a s = .ok b s' ∧ (run policy path step failed rest s').Clean ∧
      (run policy path step failed (a :: rest) s).state =
        (run policy path step failed rest s').state := by
  unfold Clean at h
  cases hs : step failed a s with
  | ok b s' =>
    simp only [run, hs] at h ⊢
    exact ⟨b, s', rfl, h, rfl⟩
  | error e s' =>
    cases he : e.abort? with
    | some a => simp [run, hs, he] at h
    | none => cases policy <;> simp [run, hs, he] at h

/-- If each step of a pass that succeeds can be taken on the other side of a relation, then a pass in
which no step fails can be. -/
theorem run_simulates (step : List Text → α → EStateM Failure σ β)
    (step' : List Text → α → EStateM Failure τ γ) (rel : List α → σ → τ → Prop)
    (hstep : ∀ a rest s s' b v, rel (a :: rest) s s' → step failed a s = .ok b v →
      (step' failed a).Ends s' (fun _ v' => rel rest v v') (fun _ _ => False))
    {items : List α} {s : σ} {s' : τ} (h : rel items s s')
    (hclean : (run policy path step failed items s).Clean) :
    (run policy path step' failed items s').Clean ∧
      rel [] (run policy path step failed items s).state
        (run policy path step' failed items s').state := by
  induction items generalizing s s' with
  | nil => exact ⟨⟨rfl, rfl⟩, h⟩
  | cons a rest ih =>
    obtain ⟨b, v, hs, hclean, hstate⟩ := hclean.cons
    have hends := hstep a rest s s' b v h hs
    cases hs' : step' failed a s' with
    | error e v' => exact (hends.of_error hs').elim
    | ok b' v' =>
      obtain ⟨hclean', hrel⟩ := ih (hends.of_ok hs') hclean
      rw [hstate]
      simp only [run, hs']
      exact ⟨hclean', hrel⟩

end Pass

namespace FileTree

variable {t t' : FileTree} {p : Path}

theorem makeDirs_shallow (t : FileTree) (p : Path) :
    (makeDirs p).Ends t (fun _ _ => t.levels p ≤ maxDepth) (fun _ _ => True) := by
  unfold EStateM.Ends makeDirs
  by_cases hdeep : maxDepth < t.levels p
  · simp only [hdeep, if_true]
  · simp only [hdeep, if_false]
    split
    · exact Nat.not_lt.1 hdeep
    · trivial

end FileTree

theorem Made.exists_of_file {t t' : FileTree} {targets : List Target} {p : Path} {b : ByteArray}
    (hm : Made t targets t') (hb : t'.get? p = some (.file b)) :
    t.get? p = some (.file b) ∨ ∃ c ∈ targets, c.dest = p := by
  by_cases hdest : ∃ c ∈ targets, c.dest = p
  · exact .inr hdest
  · have hne : ∀ c ∈ targets, c.dest ≠ p := fun c hc he => hdest ⟨c, hc, he⟩
    by_cases habove : Target.Above targets p
    · rw [hm.opened p habove] at hb
      cases hb
    · exact .inl (hm.others p habove hne ▸ hb)

namespace Workspace

variable {t d : FileTree} {dests : List Path} {targets done rest : List Target} {v w w' : Workspace}
  {c : Target} {p : Path}

theorem stage_shallow (c : Target) (w : Workspace) :
    (stage c).Ends w (fun _ _ => c.Writes → w.tree.levels c.dest.parent ≤ maxDepth)
      (fun _ _ => True) := by
  simp only [stage, ends_bind, ends_get]
  split
  · next ha => exact fun hw => absurd ha hw
  · split
    · trivial
    · simp only [ends_bind, ends_call]
      apply (makeDirs_shallow w.tree c.dest.parent).mono
      · intro _ t hlevels
        unfold EStateM.Ends
        split
        · exact fun _ => hlevels
        · trivial
      · exact fun _ _ _ => trivial

/-- None of the changes to come needs too many directories once those before it have been staged. -/
def Shallow (t : FileTree) (dests : List Path) : List Target → List Target → Prop
  | _, [] => True
  | done, c :: rest =>
    (c.Writes → ∃ w, Prepared t dests done w ∧ w.tree.levels c.dest.parent ≤ maxDepth) ∧
      Shallow t dests (done ++ [c]) rest

theorem Prepared.shallow (h : Prepared t dests done w) (hplain : ∀ c ∈ rest, Path.Plain c.dest)
    {policy : Policy}
    (hclean : (Pass.run policy Target.path (fun _ => Workspace.stage) [] rest w).Clean) :
    Shallow t dests done rest ∧ Prepared t dests (done ++ rest)
      (Pass.run policy Target.path (fun _ => Workspace.stage) [] rest w).state := by
  induction rest generalizing done w with
  | nil => exact ⟨trivial, (List.append_nil done).symm ▸ h⟩
  | cons c rest ih =>
    obtain ⟨hp, hplain⟩ := List.forall_mem_cons.1 hplain
    obtain ⟨_, w', hs, hclean, hstate⟩ := hclean.cons
    have hnext := h.stage ((stage_steps h.linkFree hp).of_ok hs)
    obtain ⟨hshallow, hprepared⟩ := ih hnext hplain hclean
    refine ⟨⟨fun hw => ⟨w, h, (stage_shallow c w).of_ok hs hw⟩, hshallow⟩, ?_⟩
    rw [hstate, List.append_cons]
    exact hprepared

def Pending (t : FileTree) (targets done : List Target) (p : Path) : Prop :=
  Target.Above targets p ∧ ¬Target.Above done p ∧ t.get? p = none

/-- The tree `d` is what the workspace shows, but for the directories that are made for changes to
come. -/
structure Trails (t : FileTree) (dests : List Path) (targets done rest : List Target) (w : Workspace)
    (d : FileTree) : Prop where
  halfway : Halfway t dests targets done rest w
  linkFree : d.LinkFree
  rooted : d.Rooted
  pending : ∀ p, Pending t targets done p → d.get? p = none
  same : ∀ p, ¬Pending t targets done p → d.get? p = w.visible p

theorem Halfway.trails (h : Halfway t dests targets [] targets w) :
    Trails t dests targets [] targets w t where
  halfway := h
  linkFree := h.start.1
  rooted := h.start.2
  pending p hp := hp.2.2
  same p hp := by
    by_cases habove : Target.Above targets p
    · have hdir : t.get? p = some .dir := by
        obtain ⟨c, hc, hw, hpc⟩ := habove
        have hnone : t.get? p ≠ none := fun hn => hp ⟨⟨c, hc, hw, hpc⟩, by simp [Target.Above], hn⟩
        exact ((h.openable c hc hw).1.passable p hpc).resolve_left hnone
      rw [hdir, h.visible_of_dir (h.dirs p hdir)]
    · exact (h.shown p habove (by simp)).symm

namespace Trails

theorem get?_discard (h : Trails t dests targets targets [] w d) (p : Path) :
    d.get? p = w.discard.get? p := by
  rw [h.halfway.get?_discard, h.same]
  exact fun hp => hp.2.1 hp.1

section

variable (h : Trails t dests targets done (c :: rest) w d)
include h

theorem get?_above (hp : Target.Above targets p) : d.get? p = none ∨ d.get? p = some .dir := by
  by_cases hpending : Pending t targets done p
  · exact .inl (h.pending p hpending)
  · exact .inr ((h.same p hpending).trans (h.halfway.visible_of_dir (h.halfway.opened p hp)))

theorem get?_dir (hp : t.get? p = some .dir ∨ Target.Above done p) : d.get? p = some .dir := by
  have hnot : ¬Pending t targets done p := by
    rintro ⟨-, hnew, hn⟩
    obtain hd | hp := hp
    · rw [hd] at hn
      cases hn
    · exact hnew hp
  have hdir : w.tree.get? p = some .dir := by
    obtain hd | ⟨c', hc', hw', hpc⟩ := hp
    · exact h.halfway.dirs p hd
    · exact h.halfway.opened p ⟨c', by simp [h.halfway.eq, hc'], hw', hpc⟩
  rw [h.same p hnot, h.halfway.visible_of_dir hdir]

theorem get?_dest (habove : ¬Target.Above targets c.dest) : d.get? c.dest = t.get? c.dest := by
  rw [h.same _ fun hp => habove hp.1, h.halfway.visible_dest h.halfway.mem_dests,
    h.halfway.get?_dest habove]

theorem levels_le (hprepared : Prepared t dests done w') (hw : c.Writes) :
    d.levels c.dest.parent ≤ w'.tree.levels c.dest.parent := by
  have hplain := h.halfway.plain
  have hopen := (h.halfway.openable c h.halfway.mem_targets hw).1
  apply levels_mono
  intro q hq _ hhas
  have hplain : Path.Plain q := hplain.parent.mono hq
  obtain ⟨hfits, hholds, hsome⟩ := (has_iff hprepared.linkFree hplain).1 hhas
  have hdir : d.get? q = some .dir := by
    obtain he | ⟨-, ⟨hdone, -⟩ | ⟨⟨x, hx, rfl⟩, -⟩⟩ := hprepared.added q
    · rw [he] at hsome
      exact h.get?_dir (.inl ((hopen.passable q hq).resolve_left (Option.isSome_iff_ne_none.1 hsome)))
    · exact h.get?_dir (.inr hdone)
    · have hapart := (hprepared.staged x hx).apart _ h.halfway.mem_dests
      exact absurd (hq.trans (Path.parent_isPrefix _)) hapart
  have hsome : (d.get? q).isSome := by simp [hdir]
  exact h.rooted.has h.linkFree hplain hfits hsome

theorem appliable (hf : c.Feasible t targets)
    (hlevels : c.Writes → d.levels c.dest.parent ≤ maxDepth) : Direct.Appliable d c := by
  have habove := h.halfway.not_above_of_feasible hf
  have hdest := h.get?_dest habove
  cases hf with
  | write hw hopen hshort hnull hfits hfree =>
    have hopen : d.Openable c.dest.parent := ⟨hopen.hasNull, hopen.fits,
      fun q hq => h.get?_above ⟨c, h.halfway.mem_targets, hw, hq⟩⟩
    exact .write hw (hlevels hw) hopen hnull hfits (hdest ▸ hfree)
  | @delete b ha hnull hfits hb =>
    have hb : d.get? c.dest = some (.file b) := hdest.trans hb
    exact .remove ha ⟨hnull, hfits, h.rooted.holds (by simp [hb])⟩ hb
  | idle ha hn =>
    refine .idle ha (Bool.eq_false_iff.2 fun hhas => ?_)
    obtain ⟨hl, hroot⟩ := h.halfway.start
    rw [hroot.has_congr hl h.linkFree h.halfway.plain hdest hhas] at hn
    cases hn

/-- A change that is promoted here and made in place there leaves the tree trailing the workspace. -/
theorem applies {d' : FileTree} (hprom : Promotes w c v) (ha : Direct.Applies d c d') :
    Trails t dests targets (done ++ [c]) rest { v with promoted := v.promoted ++ [c] } d' := by
  have hhalf := h.halfway
  have hmem := hhalf.mem_targets
  have habove := hhalf.not_above_of_feasible (hhalf.feasible_of_promotes hprom)
  have hpending {p : Path} : Pending t targets (done ++ [c]) p ↔
      Pending t targets done p ∧ ¬(c.Writes ∧ p <+: c.dest.parent) := by
    simp only [Pending, Target.above_concat, not_or]
    exact ⟨fun ⟨h₁, ⟨h₂, h₃⟩, h₄⟩ => ⟨⟨h₁, h₂, h₄⟩, h₃⟩, fun ⟨⟨h₁, h₂, h₄⟩, h₃⟩ => ⟨h₁, ⟨h₂, h₃⟩, h₄⟩⟩
  have hvisible {p : Path} (hp : p ≠ c.dest) : v.visible p = w.visible p :=
    hprom.visible_of_ne hhalf.toSteady hhalf.toStocked (fun _ => hhalf.trash_eq_none) hp
  constructor
  case halfway => exact hhalf.promotes hprom
  case linkFree => exact ha.linkFree h.linkFree
  case rooted => exact ha.rooted h.rooted
  case pending =>
    intro p hp
    obtain ⟨hp, hnot⟩ := hpending.1 hp
    have hne : p ≠ c.dest := fun he => habove (he ▸ hp.1)
    rw [ha.get?_of_ne hne hnot, h.pending p hp]
  case same =>
    intro p hp
    show d'.get? p = v.visible p
    by_cases hdest : p = c.dest
    · subst hdest
      by_cases hfits : Fits c.dest
      · rw [(hprom.steady hhalf.toSteady hhalf.mem_dests).visible_dest hhalf.mem_dests,
          hprom.get?_dest hhalf.toSteady hhalf.mem_dests hhalf.toStocked.get?_of_lookup hhalf.plain hfits,
          ha.get?_dest h.linkFree h.rooted hhalf.plain hfits]
      · rw [ha.eq_of_not_fits hfits, hprom.eq_of_not_fits hfits]
        exact h.same _ fun hp => habove hp.1
    · rw [hvisible hdest]
      by_cases hnew : c.Writes ∧ p <+: c.dest.parent
      · rw [ha.get?_above hnew.1 hnew.2, hhalf.visible_of_dir (hhalf.opened p ⟨c, hmem, hnew⟩)]
      · rw [ha.get?_of_ne hdest hnew, h.same p fun hold => hp (hpending.2 ⟨hold, hnew⟩)]

end

end Trails

end Workspace

namespace Commit

variable {t : FileTree} {base : RealPath} {policy : Policy} {options : Options}
  {failures : List (Text × Failure)} {targets : List Target} {changes : List Change} {s : Summary}

/-- A batch that is made by way of temporary files, each change at a place of its own, can be made in
place. The report is the same, and so is the tree. -/
theorem direct_of_atomic (hl : t.LinkFree) (hroot : t.Rooted)
    (hplain : ∀ c ∈ targets, Path.Plain c.dest)
    (hdistinct : targets.Pairwise fun c c' => c.dest ≠ c'.dest)
    (hs : (atomic t policy none failures targets).outcome = .ok s) (hf : s.failed = []) :
    (direct t policy none failures targets).outcome = .ok s ∧
      ∀ p, (direct t policy none failures targets).tree.get? p =
        (atomic t policy none failures targets).tree.get? p := by
  let dests := targets.map Target.dest
  obtain ⟨rfl, hstaged, hpromoted⟩ := clean_of_atomic hs hf
  obtain ⟨hshallow, hprepared⟩ := (Workspace.prepared_start hl hroot
    (Workspace.start_reserves t none targets)).shallow hplain hstaged
  rw [List.nil_append] at hprepared
  have hwithin : ∀ c ∈ targets, Path.Plain c.dest ∧ c.dest ∈ dests :=
    fun c hc => ⟨hplain c hc, List.mem_map_of_mem hc⟩
  have hhalfway := hprepared.halfway hl hroot hwithin hdistinct
  let rel (rest : List Target) (w : Workspace) (d : FileTree) : Prop :=
    ∃ done, Workspace.Trails t dests targets done rest w d ∧ Workspace.Shallow t dests done rest
  have hstep : ∀ c rest w d u v, rel (c :: rest) w d → Workspace.promote none [] c w = .ok u v →
      (directStep none [] c).Ends d (fun _ d' => rel rest v d') (fun _ _ => False) := by
    rintro c rest w d u v ⟨done, h, ⟨hlevels, hshallow⟩⟩ hs
    have hhalf := h.halfway
    obtain ⟨hfailed, -⟩ | ⟨-, v, hprom, rfl⟩ :=
      (hhalf.toSteady.promote_steps hhalf.plain hhalf.mem_dests []).of_ok hs
    · cases hfailed
    · have happliable : Direct.Appliable d c := by
        refine h.appliable (hhalf.feasible_of_promotes hprom) fun hw => ?_
        obtain ⟨w', hprepared, hle⟩ := hlevels hw
        exact Nat.le_trans (h.levels_le hprepared hw) hle
      simp only [directStep, ends_adaptExcept, ends_map]
      apply (Direct.apply_steps h.linkFree hhalf.plain).mono
      · exact fun _ d' ha => ⟨done ++ [c], h.applies hprom ha, hshallow⟩
      · exact fun _ _ h => h.2.2 happliable
  obtain ⟨hdirect, done, htrails, -⟩ := Pass.run_simulates (Workspace.promote none) (directStep none) rel hstep
    ⟨[], hhalfway.trails, hshallow⟩ hpromoted
  obtain rfl : targets = done := by simpa using htrails.halfway.eq
  have hall := Pass.run_done Target.path (directStep none) policy [] Target.path id directStep_path hdirect.1
    hdirect.2
  rw [List.map_id] at hall
  rw [direct_of_clean hdirect]
  rw [atomic_of_clean hstaged hpromoted] at hs ⊢
  have hsame := congrArg (List.map Target.path) htrails.halfway.promoted
  refine ⟨?_, htrails.get?_discard⟩
  rw [← hs]
  exact congrArg (fun paths => Except.ok (Summary.of false paths [])) (hall.symm.trans hsame.symm)

/-- A dry run leaves the tree, and does not depend on how changes would be made. -/
theorem run_dry {names : List Name} (hdry : options.dryRun = true) :
    (run t names changes policy options).tree = t ∧ ∀ isAtomic,
      run t names changes policy { options with atomic := isAtomic } =
        run t names changes policy options := by
  unfold run runAt dryRun
  simp only [hdry, if_true, implies_true, and_true]
  split
  · rfl
  · split
    · rfl
    · split
      · rfl
      · rfl

/-- If a batch is made by way of temporary files and no failure is reported, then it can be made in place:
the report is the same, the tree is the same, and no file is in it that is neither from before nor made by
one of the changes. That takes changes that are resolved to places of their own. -/
theorem run_refines {names : List Name} (hl : t.LinkFree) (hroot : t.Rooted)
    (hbackup : options.backupExt = none) (hb : t.realPath names = .ok base)
    (hdistinct : ((changes.filterMap fun c => (c.resolve t base).toOption).map Target.dest).Nodup)
    (hs : (run t names changes policy { options with atomic := true }).outcome = .ok s)
    (hf : s.failed = []) :
    let inTwo := run t names changes policy { options with atomic := true }
    let inPlace := run t names changes policy { options with atomic := false }
    inPlace.outcome = .ok s ∧ (∀ p, inPlace.tree.get? p = inTwo.tree.get? p) ∧
      ∀ p b, inPlace.tree.get? p = some (.file b) → t.get? p = some (.file b) ∨
        ∃ c ∈ changes, ∃ target, c.resolve t base = .ok target ∧ target.dest = p := by
  intro inTwo inPlace
  have hbackup (isAtomic : Bool) :
      ({ options with atomic := isAtomic } : Options).backupExt = none := hbackup
  cases hdry : options.dryRun with
  | true =>
    have hdry (isAtomic : Bool) : ({ options with atomic := isAtomic } : Options).dryRun = true := hdry
    obtain ⟨htree, hsame⟩ := run_dry (hdry true)
    have hsame : inPlace = inTwo := hsame false
    rw [hsame]
    exact ⟨hs, fun _ => rfl, fun p b hp => .inl (htree ▸ hp)⟩
  | false =>
    have hdry (isAtomic : Bool) : ({ options with atomic := isAtomic } : Options).dryRun = false := hdry
    have hapart : ∀ targets : List Target, changes.map (Change.resolve t base) = targets.map .ok →
        targets.Pairwise fun c c' => c.dest ≠ c'.dest := by
      intro targets hres
      have hall : changes.filterMap (fun c => (c.resolve t base).toOption) = targets := by
        have hmap := congrArg (List.filterMap Except.toOption) hres
        rw [List.filterMap_map, List.filterMap_map] at hmap
        exact hmap.trans List.filterMap_some
      rw [hall] at hdistinct
      exact List.pairwise_map.1 hdistinct
    obtain ⟨targets, hres, -, hm, -⟩ := run_makes (hdry true) (hbackup true) hl hroot hb hapart hs hf
    obtain ⟨rfl, hself⟩ := Change.change_resolve_all hres
    have hbase : Path.Plain base.path := by
      rw [realPath_eq_ok hl hb]
      exact Path.plain_nil.walk names
    have hplain := (Change.resolve_all hl hbase hres).2.1
    obtain ⟨houtcome, htree⟩ := run_resolved (hdry true) (hbackup true) hb hres policy
    obtain ⟨houtcome', htree'⟩ := run_resolved (hdry false) (hbackup false) hb hres policy
    rw [houtcome] at hs
    obtain ⟨hdirect, hsame⟩ := direct_of_atomic hl hroot hplain (hapart targets hres) hs hf
    have hsame : ∀ p, inPlace.tree.get? p = inTwo.tree.get? p := by
      intro p
      exact ((congrArg (·.get? p) htree').trans (hsame p)).trans (congrArg (·.get? p) htree).symm
    refine ⟨houtcome'.trans hdirect, hsame, fun p b hb => ?_⟩
    rw [hsame p] at hb
    refine (hm.exists_of_file hb).imp_right ?_
    rintro ⟨c, hc, hdest⟩
    exact ⟨c.change, List.mem_map_of_mem hc, c, hself c hc, hdest⟩

theorem run_refines_mixed :
    let t := (FileTree.empty.put ["a".toList] (.file "x".toUTF8)).put ["b".toList] (.file "y".toUTF8)
    let changes : List Change := [⟨.create, "d/e/n".toList, some "new".toList, none⟩,
      ⟨.modify, "a".toList, some "z".toList, some "x".toList⟩, ⟨.delete, "b".toList, none, none⟩,
      ⟨.delete, "d/b".toList, none, none⟩]
    let options : Options := { policy := some .failFast, atomic := true }
    let s := Summary.of false ["d/e/n".toList, "a".toList, "b".toList, "d/b".toList] []
    let inTwo := run t [] changes .failFast options
    let inPlace := run t [] changes .failFast { options with atomic := false }
    inTwo.outcome = .ok s ∧ inPlace.outcome = .ok s ∧
      ∀ p, inPlace.tree.get? p = inTwo.tree.get? p := by
  intro t changes options s inTwo inPlace
  have hl : t.LinkFree := (linkFree_empty.put (by simp) (by simp)).put (by simp) (by simp)
  have hroot : t.Rooted := by
    have ha := rooted_empty.put (p := []) (n := "a".toList) (e := .file "x".toUTF8) rfl (by decide)
    exact ha.put (p := []) rfl (by decide)
  have hdistinct :
      ((changes.filterMap fun c => (c.resolve t ⟨[], false⟩).toOption).map Target.dest).Nodup := by
    decide +kernel
  have hs : inTwo.outcome = .ok s := by decide +kernel
  have hbackup : options.backupExt = none := rfl
  obtain ⟨hdirect, hsame, -⟩ := run_refines hl hroot hbackup rfl hdistinct hs rfl
  exact ⟨hs, hdirect, hsame⟩

end Commit

end Emend
