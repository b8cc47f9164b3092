import Emend.Proofs.Commit.Success

namespace Emend

open EStateM FileTree

namespace Workspace

variable {t : FileTree} {dests : List Path} {targets done rest : List Target} {c : Target}
  {w : Workspace}

section Stage

variable (h : Prepared t dests done w) (hdone : ∀ c' ∈ done, c'.dest ∈ dests)
  (hsupplied : Target.Supplied t w.reserved (done ++ c :: rest))
include h hdone hsupplied

theorem Prepared.exists_fresh (hw : c.Writes) : ∃ n, w.tree.Fresh w.reserved c.dest.parent .staged n := by
  refine h.drew.exists_fresh hsupplied hw fun n hn => ⟨h.keptAt _, fun hdir => ?_⟩
  obtain he | ⟨-, ⟨habove, -⟩ | ⟨-, b, hb⟩⟩ := h.added (c.dest.parent ++ [tempName .staged n])
  · cases (he.trans hn.free).symm.trans hdir
  · exact Target.not_above_of_fresh hn (fun c' hc' => h.reserves _ (hdone c' hc')) habove
  · cases hb.symm.trans hdir

theorem Prepared.stageable (hc : c.dest ∈ dests) (hnew : ∀ c' ∈ done, c'.dest ≠ c.dest)
    (hf : c.Feasible t targets) : w.Stageable c := by
  intro hw
  cases hf with
  | write _ hopen hshort =>
    refine ⟨?_, ⟨hopen.hasNull, hopen.fits, fun q hq => ?_⟩, hshort, h.exists_fresh hdone hsupplied hw⟩
    · apply Ledger.lookup_eq_none
      intro x hx he
      obtain ⟨c', hc', -, he'⟩ := h.needed x hx
      exact hnew c' hc' (he'.trans he)
    · obtain he | ⟨-, ⟨-, hd⟩ | ⟨⟨x, hx, rfl⟩, -⟩⟩ := h.added q
      · rw [he]
        exact hopen.passable q hq
      · exact .inr hd
      · exact absurd (hq.trans (Path.parent_isPrefix _)) ((h.staged x hx).apart _ hc)
  | delete ha => exact absurd ha hw
  | idle ha => exact absurd ha hw

end Stage

theorem promotable_delete {b : ByteArray} (ha : c.action = .delete)
    (hb : w.tree.get? c.dest = some (.file b)) (hreach : w.tree.Reaches c.dest)
    (hshort : c.change.former = none → tooLong (c.dest.parent ++ [tempName .setAside 0]) = false)
    (hspare : c.change.former = none → ∃ n, w.tree.Fresh w.reserved c.dest.parent .setAside n) :
    Promotable w c := by
  by_cases hformer : c.change.former = none
  · obtain ⟨hnull, hfits, hholds⟩ := hreach
    have hparent := Path.parent_isPrefix c.dest
    refine .setAside ha hformer hb ⟨hnull, hfits, hholds⟩ ⟨Path.hasNull_mono hparent hnull, hshort hformer,
      hfits.mono hparent, fun q hq => hholds q (hq.trans hparent) fun he => ?_, hspare hformer⟩
    exact Path.not_isPrefix_parent (ne_nil_of_get? hb nofun) (he ▸ hq)
  · exact .remove ha hformer hb hreach

section Promotion

variable (h : Halfway t dests targets done (c :: rest) w) (hsupplied : Target.Supplied t w.reserved targets)
include h hsupplied

theorem Halfway.exists_fresh (hneeds : c.Needs t .setAside) :
    ∃ n, w.tree.Fresh w.reserved c.dest.parent .setAside n := by
  rw [h.eq] at hsupplied
  have hreserves : ∀ c ∈ targets, ∀ m ∈ c.dest, m ∈ w.reserved := fun c hc => h.reserves _ (h.within c hc).2
  refine h.drew.exists_fresh hsupplied hneeds fun n hn => ⟨h.kept _ (hn.not_mem h.reserves), fun hdir => ?_⟩
  have hshown := h.shown _ (Target.not_above_of_fresh hn hreserves) fun c' hc' he =>
    hn.not_mem h.reserves (he ▸ (h.within c' (h.eq ▸ List.mem_append_left _ hc')).2)
  rw [h.visible_of_dir hdir, hn.free] at hshown
  cases hshown

theorem Halfway.promotable (hf : c.Feasible t targets) : Promotable w c := by
  have habove := h.not_above_of_feasible hf
  cases hf with
  | write hw hopen hshort hnull hfits hfree _ hm =>
    obtain ⟨temp, ht, hb⟩ := h.content c List.mem_cons_self hw
    refine .write hw (fun hmodify => h.has_of_start habove (hm hmodify)) ht hb
      (h.reach_staged _ (Ledger.mem_of_lookup ht)) ⟨hnull, hfits, fun q hq hne => ?_⟩
      (h.get?_dest habove ▸ hfree)
    exact h.opened q ⟨c, h.mem_targets, hw, (Path.eq_or_prefix_parent hq).resolve_left hne⟩
  | @delete b ha hnull hfits hb hshort =>
    have hb' : w.tree.get? c.dest = some (.file b) := h.get?_dest habove ▸ hb
    have hholds : w.tree.Holds c.dest := (h.start.2.holds (by simp [hb])).mono h.dirs
    refine promotable_delete ha hb' ⟨hnull, hfits, hholds⟩ hshort fun hformer => ?_
    exact h.exists_fresh hsupplied ⟨ha, hformer, h.start.2.has h.start.1 h.plain hfits (by simp [hb])⟩
  | idle ha hn =>
    refine .idle ha (Bool.eq_false_iff.2 fun hhas => ?_)
    rw [h.start.2.has_congr h.start.1 h.linkFree h.plain (h.get?_dest habove) hhas] at hn
    cases hn

end Promotion

/-- After some of the changes have been staged, apart from the places, the next one needs too many
directories. -/
def DeepApart (t : FileTree) (dests : List Path) (targets : List Target) : Prop :=
  ∃ done c rest w, targets = done ++ c :: rest ∧ Prepared t dests done w ∧
    maxDepth < w.tree.levels c.dest.parent

def Deep (t : FileTree) (targets : List Target) : Prop :=
  ∃ done c rest w, targets = done ++ c :: rest ∧ Prepared t (targets.map Target.dest) done w ∧
    maxDepth < w.tree.levels c.dest.parent

theorem not_deep (hplain : ∀ c ∈ targets, Path.Plain c.dest)
    (hfew : ∀ done c rest, targets = done ++ c :: rest → ∃ q, q <+: c.dest.parent ∧
      q ≠ c.dest.parent ∧ Fits q ∧ (t.get? q = some .dir ∨ Target.Above done q) ∧
      c.dest.parent.length ≤ q.length + maxDepth) : ¬Deep t targets := by
  rintro ⟨done, c, rest, w, heq, h, hdeep⟩
  obtain ⟨q, hq, hne, hfits, hdir, hlen⟩ := hfew done c rest heq
  have hparent : Path.Plain c.dest.parent := (hplain c (by simp [heq])).parent
  have hdir : w.tree.get? q = some .dir := hdir.elim (h.keptAt q).get?_eq_some (h.opened q)
  have hsome : (w.tree.get? q).isSome := by simp [hdir]
  have hhas := h.rooted.has h.linkFree (hparent.mono hq) hfits hsome
  have := levels_le hhas hq hne
  omega

section Whole

variable (hl : t.LinkFree) (hroot : t.Rooted) (hplain : ∀ c ∈ targets, Path.Plain c.dest)
  (hdistinct : targets.Pairwise fun c c' => c.dest ≠ c'.dest)
  (hfeasible : ∀ c ∈ targets, c.Feasible t targets)

include hl hroot hplain hdistinct hfeasible

theorem stage_completes (policy : Policy) (backup : Option Text) (hsub : ∀ c ∈ targets, c.dest ∈ dests)
    (hreserves : ∀ d ∈ dests, ∀ n ∈ d, n ∈ (start t backup targets).reserved)
    (hsupplied : Target.Supplied t (start t backup targets).reserved targets) :
    let pass := Pass.run policy Target.path (fun _ => stage) [] targets (start t backup targets)
    pass.failures = [] ∧ pass.abort? = none ∧ Prepared t dests targets pass.state ∧
        pass.state.reserved = (start t backup targets).reserved ∨
      pass.abort? = some .tooDeep ∧ DeepApart t dests targets := by
  intro pass
  refine (stage_all hl hroot hplain policy hreserves).imp_right ?_
  rintro ⟨e, w', ⟨done, c, rest, w, rfl, h, hreserved, hu⟩, hstopped⟩
  have hc : c ∈ done ++ c :: rest := by simp
  obtain ⟨rfl, hdeep⟩ | hnot := hu.reason
  · exact ⟨hstopped.abort _ rfl, done, c, rest, w, rfl, h, hdeep⟩
  · have hnew : ∀ c' ∈ done, c'.dest ≠ c.dest := fun c' hc' =>
      (List.pairwise_append.1 hdistinct).2.2 c' hc' c List.mem_cons_self
    have hdone : ∀ c' ∈ done, c'.dest ∈ dests := fun c' hc' => hsub c' (List.mem_append_left _ hc')
    exact absurd (h.stageable hdone (hreserved ▸ hsupplied) (hsub c hc) hnew (hfeasible c hc)) hnot

end Whole

theorem Halfway.promote_completes (h : Halfway t dests targets [] targets w) (policy : Policy)
    (hsupplied : Target.Supplied t w.reserved targets) (hfeasible : ∀ c ∈ targets, c.Feasible t targets) :
    let pass := Pass.run policy Target.path (Workspace.promote none) [] targets w
    pass.failures = [] ∧ pass.abort? = none := by
  obtain ⟨hf, ha, -⟩ | ⟨e, w', ⟨done, c, rest, v, hv, hreserved, hnot⟩, -⟩ := h.promote_all policy
  · exact ⟨hf, ha⟩
  · exact absurd (hv.promotable (hreserved ▸ hsupplied) (hfeasible c hv.mem_targets)) hnot

end Workspace

namespace Commit

variable {t : FileTree} {base : RealPath} {policy : Policy} {options : Options}
  {targets : List Target} {changes : List Change}

/-- A batch whose changes are all feasible is made, or given up for too many directories. -/
theorem atomic_completes (hl : t.LinkFree) (hroot : t.Rooted)
    (hplain : ∀ c ∈ targets, Path.Plain c.dest)
    (hdistinct : targets.Pairwise fun c c' => c.dest ≠ c'.dest)
    (hfeasible : Target.AllFeasible t targets) (policy : Policy) :
    (∃ s, (atomic t policy none [] targets).outcome = .ok s ∧ s.failed = []) ∨
      (atomic t policy none [] targets).outcome = .error .tooDeep ∧ Workspace.Deep t targets := by
  obtain ⟨hf, ha, hprepared, hreserved⟩ | ⟨ha, hdeep⟩ :=
    Workspace.stage_completes hl hroot hplain hdistinct hfeasible.each policy none
      (fun c hc => List.mem_map_of_mem hc) (Workspace.start_reserves t none targets) hfeasible.supplied
  · have hhalfway := hprepared.halfway hl hroot
      (fun c hc => ⟨hplain c hc, List.mem_map_of_mem hc⟩) hdistinct
    have hpromoted := hhalfway.promote_completes policy (hreserved ▸ hfeasible.supplied) hfeasible.each
    rw [atomic_of_clean ⟨hf, ha⟩ hpromoted]
    exact .inl ⟨_, rfl, rfl⟩
  · exact .inr ⟨atomic_of_abort ha, hdeep⟩

theorem atomic_of_levels {c : Target} (hw : c.Writes) (hdeep : maxDepth < t.levels c.dest.parent) :
    (atomic t policy none [] (c :: targets)).outcome = .error .tooDeep := by
  have hstage : (Workspace.stage c).Ends (Workspace.start t none (c :: targets)) (fun _ _ => False)
      (fun e _ => e = .call (.aborted .tooDeep)) := by
    have hmake : makeDirs c.dest.parent t = .error (.aborted .tooDeep) t := if_pos hdeep
    simp only [Workspace.stage, ends_bind, ends_get]
    split
    · next ha => exact hw ha
    · simp only [Workspace.start, List.lookup_nil, Option.isSome_none, Bool.false_eq_true, if_false,
        ends_bind, Workspace.ends_call]
      unfold EStateM.Ends
      rw [hmake]
  have habort : (staged none t policy (c :: targets)).abort? = some .tooDeep := by
    rw [staged, Pass.run]
    cases hs : Workspace.stage c (Workspace.start t none (c :: targets)) with
    | ok u w => exact (hstage.of_ok hs).elim
    | error e w =>
      obtain rfl := hstage.of_error hs
      rfl
  exact atomic_of_abort habort

section Options

variable {names : List Name} (hatomic : options.atomic = true) (hdry : options.dryRun = false)
  (hbackup : options.backupExt = none) (hb : t.realPath names = .ok base)
  (hres : changes.map (Change.resolve t base) = targets.map .ok)
include hatomic hdry hbackup hb hres

theorem run_outcome : (run t names changes policy options).outcome =
    (atomic t policy none [] targets).outcome := by
  obtain ⟨houtcome, -⟩ := run_resolved hdry hbackup hb hres policy
  rwa [hatomic, if_pos rfl] at houtcome

theorem run_completes (policy : Policy) (hl : t.LinkFree) (hroot : t.Rooted)
    (hdistinct : targets.Pairwise fun c c' => c.dest ≠ c'.dest)
    (hfeasible : Target.AllFeasible t targets) :
    (∃ s, (run t names changes policy options).outcome = .ok s ∧ s.failed = []) ∨
      (run t names changes policy options).outcome = .error .tooDeep ∧ Workspace.Deep t targets := by
  have hplain : Path.Plain base.path := realPath_plain hb
  rw [run_outcome hatomic hdry hbackup hb hres]
  exact atomic_completes hl hroot (Change.resolve_all hl hplain hres).2.1 hdistinct hfeasible policy

end Options

end Commit

end Emend
