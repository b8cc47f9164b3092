import Emend.Proofs.Apply.Success
import Emend.Proofs.Commit.Forecast

namespace Emend

open FileTree

namespace Operation

def places (base : RealPath) (ops : List Operation) : List Path :=
  (ops.flatMap changed).filterMap base.resolve?

def newPlaces (base : RealPath) (ops : List Operation) : List Path :=
  (ops.flatMap made).filterMap base.resolve?

def reserved (t : FileTree) (base : RealPath) (backup : Option Text) (ops : List Operation) : List Name :=
  ((places base ops).flatMap fun p => p ++ backup.toList.flatMap (Backup.names p)) ++ t.linkNames

/-- What a plan does not look at is in order. -/
structure Unobstructed (t : FileTree) (base : RealPath) (options : Options) (ops : List Operation) :
    Prop where
  /-- Above a new file there is nothing but directories, and no other new file. -/
  passable : ∀ p ∈ newPlaces base ops, t.Passable p.parent
  apart : ∀ p ∈ newPlaces base ops, ∀ q ∈ newPlaces base ops, ¬p <+: q.parent
  hasNull : ∀ p ∈ places base ops, Path.hasNull p = false
  fits : ∀ p ∈ newPlaces base ops, Fits p
  /-- A file can be written where a backup goes, and no new one needs a directory there. -/
  backed : ∀ ext, options.backupExt = some ext → ext ≠ [] →
    ∀ path body p, .update path body none ∈ ops → base.resolve? path = some p →
      ∃ q, Backup.spot? t p ext = some q ∧ t.get? q ≠ some .dir ∧
        ∀ r ∈ newPlaces base ops, ¬q <+: r.parent
  /-- Names of temporary files are not too long, and in each directory there are as many of them left as
  places that are changed. -/
  short : options.atomic = true →
    ∀ p ∈ places base ops, tooLong (p.parent ++ [tempName .staged 0]) = false
  supplied : options.atomic = true → ∀ kind dir, t.Spares (reserved t base options.backupExt ops) dir kind
    ((places base ops).countP fun p => p.parent = dir)

theorem spares_of_few {t : FileTree} {base : RealPath} {ops : List Operation} {names : List Name}
    {dir : Path} (h : (t.names dir).length + names.length + (places base ops).length ≤ tempNames)
    (kind : TempKind) : t.Spares names dir kind ((places base ops).countP fun p => p.parent = dir) := by
  have hle : ((places base ops).countP fun p => p.parent = dir) ≤ (places base ops).length :=
    List.countP_le_length
  exact spares_of_names (by omega)

end Operation

/-- A patch that has been applied has no new file above another, however it was applied. -/
theorem Completed.apart {t t' : FileTree} {base : RealPath} {ops : List Operation} {s : Summary}
    (h : Completed t base ops s t') : ∀ p ∈ Operation.newPlaces base ops,
      ∀ q ∈ Operation.newPlaces base ops, ¬p <+: q.parent := by
  have hmade {r : Path} (hr : r ∈ Operation.newPlaces base ops) :
      ∃ op ∈ ops, ∃ path ∈ op.made, base.resolve? path = some r := by
    obtain ⟨path, hpath, hr⟩ := List.mem_filterMap.1 hr
    obtain ⟨op, hop, hpath⟩ := List.mem_flatMap.1 hpath
    exact ⟨op, hop, path, hpath, hr⟩
  intro p hp q hq hpq
  obtain ⟨op, hop, path, hpath, hp⟩ := hmade hp
  obtain ⟨op', hop', path', hpath', hq⟩ := hmade hq
  have hdir : t'.get? p = some .dir := (h.dirs p).2 (.inr ⟨op', hop', path', hpath', q, hq, hpq⟩)
  have hfile : ∃ b, t'.get? p = some (.file b) := by
    cases h.done op hop with
    | delete | update => cases hpath
    | add hr hfile =>
      obtain rfl := List.mem_singleton.1 hpath
      exact ⟨_, Option.some.inj (hr.symm.trans hp) ▸ hfile⟩
    | move _ hr _ _ hfile =>
      obtain rfl := List.mem_singleton.1 hpath
      exact ⟨_, Option.some.inj (hr.symm.trans hp) ▸ hfile⟩
  obtain ⟨b, hb⟩ := hfile
  cases hb.symm.trans hdir

namespace WorkedOut

variable {t : FileTree} {base : RealPath} {rules : Option Rules} {ops : List Operation} {es : List Effect}
  {d : Draft} {targets : List Target} {c : Target} {options : Options}
  (h : WorkedOut t base rules ops es d targets) (hl : t.LinkFree) (hb : Path.Plain base.path)
include h hl hb

theorem dests_eq : targets.map Target.dest = Operation.places base ops := by
  obtain ⟨-, -, hdests⟩ := Change.resolve_all hl hb h.resolved
  rw [Operation.places, ← h.paths_eq hl hb, List.filterMap_map, ← List.filterMap_eq_map]
  exact (List.filterMap_congr hdests).symm

theorem reserved_eq (backup : Option Text) :
    (Workspace.start t backup targets).reserved = Operation.reserved t base backup ops := by
  rw [Operation.reserved, ← h.dests_eq hl hb, List.flatMap_map]
  rfl

theorem wanted_le_places (kind : TempKind) (dir : Path) :
    Target.wanted t kind dir targets ≤ (Operation.places base ops).countP fun p => p.parent = dir := by
  rw [← h.dests_eq hl hb, List.countP_map]
  exact List.countP_mono_left fun c _ hc => decide_eq_true (of_decide_eq_true hc).2

theorem dest_mem_places (hc : c ∈ targets) : c.dest ∈ Operation.places base ops :=
  h.dests_eq hl hb ▸ List.mem_map_of_mem hc

theorem dest_mem_newPlaces (hc : c ∈ targets) (ha : c.action = .create) :
    c.dest ∈ Operation.newPlaces base ops := by
  obtain ⟨hp, op, hop, e, hw, hce⟩ := h.exists_works hl hb hc
  exact List.mem_filterMap.2 ⟨_, List.mem_flatMap.2 ⟨op, hop, hw.path_mem_made hce ha⟩, hp⟩

theorem not_above {p : Path} (hfree : t.get? p ≠ some .dir)
    (hp : ∀ r ∈ Operation.newPlaces base ops, ¬p <+: r.parent) : ¬Target.Above targets p := by
  intro habove
  obtain hd | ⟨c, hc, ha, hpc⟩ := (h.planned hl hb).above_cases hl habove
  · exact hfree hd
  · exact hp _ (h.dest_mem_newPlaces hl hb hc ha) hpc

variable (hroot : t.Rooted) (hclear : Operation.Unobstructed t base options ops)
include hroot hclear

/-- Changes that a plan would make are unhindered, if what it does not look at is in order. -/
theorem unhindered (hc : c ∈ targets) : c.Unhindered t options.backupExt targets := by
  have hplain := (h.planned hl hb).plain c hc
  have hsound := (h.planned hl hb).sound c hc
  have hnull := hclear.hasNull _ (h.dest_mem_places hl hb hc)
  have hbacked (ext : Text) (hext : options.backupExt = some ext) (hne : ext ≠ [])
      (ha : c.action = .modify) :
      ∃ p, Backup.spot? t c.dest ext = some p ∧ t.get? p ≠ some .dir ∧ ¬Target.Above targets p := by
    obtain ⟨hp, op, hop, e, hw, hce⟩ := h.exists_works hl hb hc
    obtain ⟨body, rfl⟩ := hw.eq_update hce ha
    obtain ⟨p, hspot, hfree, habove⟩ := hclear.backed ext hext hne _ body _ hop hp
    exact ⟨p, hspot, hfree, h.not_above hl hb hfree habove⟩
  obtain ⟨ha, hn⟩ | ⟨ha, b, hfind⟩ := hsound.cases
  · have hmem := h.dest_mem_newPlaces hl hb hc ha
    have hfree : t.get? c.dest ≠ some .dir := by
      simp [hroot.get?_eq_none hl hplain (hclear.fits _ hmem) hn]
    exact {
      plain := hplain
      hasNull := hnull
      fits := hclear.fits _ hmem
      free := hfree
      unmade := h.not_above hl hb hfree (hclear.apart _ hmem)
      passable := fun _ => hclear.passable _ hmem
      found := fun hne => absurd ha hne
      known := fun hm => nomatch ha.symm.trans hm
      backed := hbacked }
  · obtain ⟨hfits, hholds, hb'⟩ := (find_eq_ok hl hplain).1 hfind
    have hfree : t.get? c.dest ≠ some .dir := by simp [hb']
    have hparents {q : Path} (hq : q <+: c.dest.parent) : t.get? q = some .dir :=
      hholds q (hq.trans (Path.parent_isPrefix _)) fun he =>
        Path.not_isPrefix_parent (ne_nil_of_get? hb' nofun) (he ▸ hq)
    exact {
      plain := hplain
      hasNull := hnull
      fits := hfits
      free := hfree
      unmade := h.not_above hl hb hfree fun r hr hp => by
        simpa [hb'] using hclear.passable r hr _ hp
      passable := fun _ q hq => .inr (hparents hq)
      found := fun _ => ⟨b, hb'⟩
      known := fun hm => (hsound.modified hl hplain hm).imp fun _ hf => hf.1
      backed := hbacked }

theorem commit_goes (policy : Policy) :
    let made := if options.atomic then Commit.atomic t policy options.backupExt [] targets
      else Commit.direct t policy options.backupExt [] targets
    (∃ s, made.outcome = .ok s ∧ s.failed = []) ∨ made.outcome = .error .tooDeep := by
  have hc : ∀ c ∈ targets, c.Unhindered t options.backupExt targets :=
    fun c hc => h.unhindered hl hb hroot hclear hc
  cases hatomic : options.atomic with
  | false => exact Commit.direct_goes hl hroot hc policy
  | true =>
    refine Commit.atomic_goes hl hroot (h.planned hl hb).apart hc
      (fun c hc => hclear.short hatomic _ (h.dest_mem_places hl hb hc))
      (fun kind dir => ?_) policy
    rw [h.reserved_eq hl hb]
    exact (hclear.supplied hatomic kind dir).mono (h.wanted_le_places hl hb kind dir)

end WorkedOut

namespace Applied

variable {t : FileTree} {base : RealPath} {ops : List Operation} {s : Summary} {patch : Text}
  {respectRules : Bool} {options : Options} {names : List Name}

/-- If a dry run reports no failure, the patch is applied without a failure, unless what a dry run does not
look at is in the way or the call is given up for the depth of directories. -/
theorem ofPatch_as_forecast (hl : t.LinkFree) (hroot : t.Rooted) (hbase : t.realPath names = .ok base)
    (hread : Envelope.read patch = .ok ops) (hclear : Operation.Unobstructed t base options ops)
    (hs : (ofPatch t names patch { options with dryRun := true } respectRules).outcome = .ok s)
    (hf : s.failed = [])
    (hdeep : (ofPatch t names patch { options with dryRun := false } respectRules).outcome ≠
      .error (.aborted .tooDeep)) :
    ∃ s', (ofPatch t names patch { options with dryRun := false } respectRules).outcome = .ok s' ∧
      s'.failed = [] := by
  obtain rfl := realPath_eq_ok hl hbase
  have hb := Path.plain_nil.walk names
  simp only [ofPatch_eq_ofPatchAt hbase] at hs hdeep ⊢
  obtain ⟨policy, rules, ops', es, d, targets, -, hpolicy, hr, -, hread', hdraft, hw, -, -, -⟩ :=
    ofPatchAt_works hl hb hs hf
  rw [hread] at hread'
  obtain rfl := Except.ok.inj hread'
  have hwet : ({ options with dryRun := false } : Options).dryRun = false := rfl
  have hpolicy : ({ options with dryRun := false } : Options).policy = some policy := hpolicy
  have hrun := (Commit.runAt_resolved hwet hw.resolved policy).1
  rw [ofPatchAt_outcome hdraft hpolicy, Commit.run_eq_runAt hr] at hdeep ⊢
  obtain ⟨s', hs', hf'⟩ | habort := hw.commit_goes hl hb hroot hclear policy
  · rw [hrun.trans hs']
    exact ⟨_, rfl, hf'⟩
  · rw [hrun.trans habort] at hdeep
    exact absurd rfl hdeep

theorem ofPatch_as_forecast_mixed :
    let raw := FileTree.empty.put ["o".toList] (.file ⟨#[0xff, 0x00]⟩)
    let t := raw.put ["a".toList] (.file "x\n".toUTF8)
    let patch := Text.ofLines <| List.map String.toList ["*** Begin Patch", "*** Add File: d/n", "+new",
      "*** Update File: a", "-x", "+y", "*** Delete File: o", "*** End Patch"]
    let options : Options := { policy := some .failFast, atomic := true, backupExt := some "bak".toList }
    (∃ s, (ofPatch t [] patch { options with dryRun := true } false).outcome = .ok s ∧ s.failed = []) ∧
      ∃ s', (ofPatch t [] patch { options with dryRun := false } false).outcome = .ok s' ∧
        s'.failed = [] := by
  intro raw t patch options
  have hlinks : t.LinkFree := (linkFree_empty.put (by simp) (by simp)).put (by simp) (by simp)
  have hroot : t.Rooted := by
    have hraw : raw.Rooted := rooted_empty.put (p := []) rfl (by decide)
    exact hraw.put (p := []) rfl (by decide)
  let ops : List Operation := [.add "d/n".toList ["+new".toList],
    .update "a".toList ["-x".toList, "+y".toList] none, .delete "o".toList]
  have hplaces : Operation.places ⟨[], false⟩ ops =
      [["d".toList, "n".toList], ["a".toList], ["o".toList]] := by
    decide +kernel
  have hnew : Operation.newPlaces ⟨[], false⟩ ops = [["d".toList, "n".toList]] := by decide +kernel
  have hnames (dir : Path) : (t.names dir).length ≤ 2 := by
    have ho := length_names_put FileTree.empty ["o".toList] (.file ⟨#[0xff, 0x00]⟩) dir
    rw [names_empty] at ho
    exact Nat.le_trans (length_names_put raw ["a".toList] (.file "x\n".toUTF8) dir) (Nat.succ_le_succ ho)
  have hreserved : (Operation.reserved t ⟨[], false⟩ options.backupExt ops).length < 90 := by
    decide +kernel
  have hclear : Operation.Unobstructed t ⟨[], false⟩ options ops := by
    constructor
    case passable =>
      rw [hnew]
      refine List.forall_mem_singleton.2 fun q hq => ?_
      obtain rfl | ⟨q, rfl, hnil⟩ := List.prefix_cons_iff.1 hq
      · exact .inr rfl
      · obtain rfl := List.prefix_nil.1 hnil
        exact .inl (by decide +kernel)
    case fits => exact hnew ▸ List.forall_mem_singleton.2 ⟨by decide, by decide⟩
    case apart =>
      rw [hnew]
      decide +kernel
    case hasNull | short =>
      rw [hplaces]
      decide +kernel
    case backed =>
      intro ext hext _ path body p hop hp
      obtain rfl := Option.some.inj hext
      obtain ⟨rfl, -⟩ : path = "a".toList ∧ _ := by simpa [ops] using hop
      obtain rfl := Option.some.inj hp
      exact ⟨["a.bak".toList], by decide +kernel, by decide +kernel, by rw [hnew]; decide⟩
    case supplied =>
      intro _ kind dir
      have hthree : (Operation.places ⟨[], false⟩ ops).length = 3 := congrArg List.length hplaces
      have hlimit : 95 ≤ tempNames := by decide
      have hdir := hnames dir
      exact Operation.spares_of_few (by omega) kind
  have hfailed : (ofPatch t [] patch { options with dryRun := true } false).outcome.map Summary.failed =
      .ok [] := by
    decide +kernel
  have hmade : (ofPatch t [] patch { options with dryRun := false } false).outcome.map Summary.failed =
      .ok [] := by
    decide +kernel
  obtain ⟨s, hs, hf⟩ := Except.map_eq_ok.1 hfailed
  obtain ⟨s', hs', -⟩ := Except.map_eq_ok.1 hmade
  exact ⟨⟨s, hs, hf⟩, ofPatch_as_forecast hlinks hroot rfl (by decide +kernel) hclear hs hf (by simp [hs'])⟩

/-- A file and one below it can be planned together, but not made. -/
theorem not_ofPatch_as_forecast :
    ¬∀ (t : FileTree) (names : List Name) (patch : Text) (options : Options) (respectRules : Bool)
      (s : Summary), t.LinkFree → t.Rooted →
      (ofPatch t names patch { options with dryRun := true } respectRules).outcome = .ok s → s.failed = [] →
        ∃ s', (ofPatch t names patch { options with dryRun := false } respectRules).outcome = .ok s' ∧
          s'.failed = [] := by
  intro hall
  let patch := Text.ofLines <| List.map String.toList ["*** Begin Patch", "*** Add File: a", "+x",
    "*** Add File: a/b", "+y", "*** End Patch"]
  let options : Options := { policy := some .failFast, atomic := true }
  have hfailed : (ofPatch .empty [] patch { options with dryRun := true } false).outcome.map Summary.failed =
      .ok [] := by
    decide +kernel
  have hfailed' : (ofPatch .empty [] patch { options with dryRun := false } false).outcome.map
      Summary.failed = .ok ["a".toList] := by
    decide +kernel
  obtain ⟨s, hs, hf⟩ := Except.map_eq_ok.1 hfailed
  obtain ⟨s', hs', hf'⟩ := hall .empty [] patch options false s linkFree_empty rooted_empty hs hf
  rw [hs', Except.map, hf'] at hfailed'
  cases hfailed'

end Applied

end Emend
