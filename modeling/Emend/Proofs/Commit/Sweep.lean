import Emend.Proofs.Commit.Backup
import Emend.Proofs.Commit.Cleanup

namespace Emend

open EStateM FileTree

variable {k : Batch} {w : Workspace} {t : FileTree} {c : Target} {p : Path}

theorem not_tempPrefixed_dot {n : Name} (hne : n ≠ []) (hn : ¬TempPrefixed n) (rest : Text) :
    ¬TempPrefixed (n ++ '.' :: rest) := by
  intro h
  have hself : n <+: n ++ '.' :: rest := List.prefix_append _ _
  obtain hlong | hshort := Nat.lt_or_ge n.length (".v4a-".toList).length
  · -- The dot would be one of the characters behind the first.
    have hdot : n ++ ['.'] <+: ".v4a-".toList :=
      List.prefix_of_prefix_length_le ⟨rest, by simp⟩ h (by rw [List.length_append]; exact hlong)
    obtain ⟨c, n, rfl⟩ := List.exists_cons_of_ne_nil hne
    have hmem : '.' ∈ "v4a-".toList := (List.cons_prefix_cons.1 hdot).2.subset (by simp)
    revert hmem
    decide
  · exact hn (List.prefix_of_prefix_length_le h hself hshort)

theorem Backup.not_tempPrefixed_names {dest : Path} {ext : Text}
    (hdest : ∀ n ∈ dest, '/' ∉ n ∧ ¬TempPrefixed n) (hplain : Path.Plain dest) (hext : '/' ∉ ext)
    (hroot : dest = [] → ¬TempPrefixed (dotted ext)) : ∀ n ∈ names dest ext, ¬TempPrefixed n := by
  obtain ⟨rest, hdotted⟩ := exists_dotted ext
  rw [names_eq_place (fun n hn => (hdest n hn).1) hext]
  obtain rfl | ⟨p, n, rfl⟩ := List.eq_nil_or_concat' dest
  · exact List.forall_mem_singleton.2 (hroot rfl)
  · obtain ⟨hp, hn⟩ := List.forall_mem_append.1 hdest
    rw [place_concat, hdotted]
    refine List.forall_mem_append.2 ⟨fun m hm => (hp m hm).2, List.forall_mem_singleton.2 ?_⟩
    exact not_tempPrefixed_dot (hplain n (by simp)).1 (List.forall_mem_singleton.1 hn).2 rest

section Direct

variable (hc : Confined [] k.firm k.start t) (hfirm : ∀ p, k.firm p) (h : c.Orderly k.start k.backup)
  (hlinks : k.start.LinksNamed (¬TempPrefixed ·))
include hc hfirm h hlinks

theorem Direct.apply_litter :
    (Direct.apply k.backup c).Ends t
      (fun _ t' => Confined [] k.firm k.start t' ∧ ∀ p, t'.Litter p → t.Litter p)
      (fun _ t' => Confined [] k.firm k.start t' ∧ ∀ p, t'.Litter p → t.Litter p) := by
  have hsame : Confined [] k.firm k.start t ∧ ∀ p, t.Litter p → t.Litter p := ⟨hc, fun _ h => h⟩
  simp only [Direct.apply, ends_bind, ends_get]
  split
  · next ha =>
    split
    · have hentry (q : Path) (hq : k.start.Enters c.dest q) (_ : k.firm q) : k.start.NoLink q :=
        (h.bound.entry q hq).2 (by simp [ha])
      apply (Target.removeFile_behaves hc h hentry).mono
      · exact fun _ _ hb => ⟨hb.keeps.confined, hb.tidy.litter⟩
      · rintro _ _ rfl
        exact hsame
    · exact hsame
  · simp only [ends_bind]
    have hkeeps := makeDirs_keeps hc hfirm h.bound.plain.parent rfl (inside_nil _ _)
    apply (hkeeps.and (makeDirs_litter t c.dest.parent)).mono
    · rintro _ t₁ ⟨hkeeps, hlitter⟩
      apply (Backup.write_behaves hkeeps.confined h hlinks).mono
      · intro _ t₂ hb
        have hlitter₂ := fun p hp => hlitter p (hb.tidy.litter p hp)
        apply (Target.writeFile_behaves hb.keeps.confined h hlinks c.bytes).mono
        · exact fun _ _ hb => ⟨hb.keeps.confined, fun p hp => hlitter₂ p (hb.tidy.litter p hp)⟩
        · rintro _ _ rfl
          exact ⟨hb.keeps.confined, hlitter₂⟩
      · rintro _ _ rfl
        exact ⟨hkeeps.confined, hlitter⟩
    · exact fun _ _ h => ⟨h.1.confined, h.2⟩

end Direct

namespace Commit

variable {policy : Policy} {failures : List (Text × Failure)} {targets : List Target} {s : Summary}

/-- Changes that are made in place leave no temporary file at all. -/
theorem direct_litter (hk : k.Orderly) (hroot : k.start.Rooted) (hnone : ∀ p, ¬k.start.Litter p)
    (hs : (direct k.start policy k.backup failures k.targets).outcome = .ok s) :
    ∃ success more, s = .of false success (failures ++ more) ∧
      ∀ p, ¬(direct k.start policy k.backup failures k.targets).tree.Litter p := by
  have hstep : ∀ c ∈ k.targets, ∀ t,
      Confined [] (fun _ => True) k.start t ∧ (∀ p, ¬t.Litter p) →
        (Direct.apply k.backup c).Ends t
          (fun _ t' => Confined [] (fun _ => True) k.start t' ∧ ∀ p, ¬t'.Litter p)
          (fun _ t' => Confined [] (fun _ => True) k.start t' ∧ ∀ p, ¬t'.Litter p) := by
    rintro c hc t ⟨ht, hclean⟩
    apply (Direct.apply_litter (k := { k with firm := fun _ => True }) ht (fun _ => trivial)
      (hk.target c hc) hk.links).mono
    · exact fun _ _ h => ⟨h.1, fun p hp => hclean p (h.2 p hp)⟩
    · exact fun _ _ h => ⟨h.1, fun p hp => hclean p (h.2 p hp)⟩
  have hmade := Pass.run_keeps Target.path
    (fun _ c => ((Direct.apply k.backup c).map fun _ => c.path).adaptExcept Failure.call) policy []
    (fun t => Confined [] (fun _ => True) k.start t ∧ ∀ p, ¬t.Litter p)
    (fun _ c hc t h => by
      simp only [ends_adaptExcept, ends_map]
      exact hstep c hc t h)
    ⟨confined_refl hroot, hnone⟩
  unfold direct at hs ⊢
  dsimp only at hs ⊢
  split at hs
  · cases hs
  · obtain rfl := Except.ok.inj hs
    exact ⟨_, _, rfl, hmade.2⟩

/-- After a batch is undone, only those files are left that are lost. -/
theorem rollback_litter (h : w.Accounted k []) (hk : k.Orderly)
    (hs : (rollback failures w).outcome = .ok s) :
    s = .of false [] failures ∧ ∀ p, (rollback failures w).tree.Litter p → k.Lost p := by
  unfold rollback at hs ⊢
  dsimp only at hs ⊢
  split at hs
  · cases hs
  · next ha =>
    exact ⟨(Except.ok.inj hs).symm, (h.rollback hk).discard hk.way⟩

theorem promote_litter (h : w.Accounted k []) (hk : k.Orderly)
    (hs : (promote policy k.backup failures k.targets w).outcome = .ok s) :
    ∃ tried more success, tried <+: k.targets ∧ s = .of false success (failures ++ more) ∧
      ∀ p, (promote policy k.backup failures k.targets w).tree.Litter p →
        Batch.Lost { k with tried := k.tried ++ tried, failures := k.failures ++ more } p := by
  have hstep : ∀ failed tried more, ∀ c ∈ k.targets, ∀ w,
      Workspace.Accounted { k with tried := tried, failures := more } [] w →
      (Workspace.promote k.backup failed c).Ends w
        (fun _ => Workspace.Accounted { k with tried := tried ++ [c], failures := more } [])
        (fun e w => e.abort? = none → Workspace.Accounted
          { k with tried := tried ++ [c], failures := more ++ [(c.path, e)] } [] w) := by
    intro failed tried more c hc w h
    have hpromote := h.promote (hk.tried tried more) hc failed
    simpa only [Batch.after, List.append_nil] using hpromote
  unfold promote at hs ⊢
  dsimp only at hs ⊢
  split at hs
  · cases hs
  · next ha =>
    obtain ⟨tried, htried, hpass⟩ := Pass.run_each Target.path (Workspace.promote k.backup) policy
      (failures.map (·.1)) (fun tried more w => Workspace.Accounted
        { k with tried := tried, failures := more } [] w) hstep h ha
    have hk' := hk.tried (k.tried ++ tried) (k.failures ++ (Pass.run policy Target.path
      (Workspace.promote k.backup) (failures.map (·.1)) k.targets w).failures)
    split at hs
    · next hhalted =>
      obtain ⟨rfl, hlitter⟩ := rollback_litter hpass hk' hs
      refine ⟨tried, _, _, htried, rfl, ?_⟩
      simpa only [ha, hhalted, if_true] using hlitter
    · next hhalted =>
      obtain rfl := Except.ok.inj hs
      refine ⟨tried, _, _, htried, rfl, ?_⟩
      simpa only [ha, hhalted, Bool.false_eq_true, if_false] using hpass.discard hk'.way

theorem atomic_litter (hk : k.Orderly) (hroot : k.start.Rooted) (hnone : ∀ p, ¬k.start.Litter p)
    (hs : (atomic k.start policy k.backup failures k.targets).outcome = .ok s) :
    ∃ success more, s = .of false success (failures ++ more) ∧
      ∀ p, (atomic k.start policy k.backup failures k.targets).tree.Litter p →
        ∃ c ∈ k.targets, c.Leaves k.start k.backup k.targets more p := by
  -- While contents are staged, no link goes.
  let k₁ : Batch := ⟨k.start, fun _ => True, k.backup, k.targets, [], []⟩
  let k₂ : Batch := { k with tried := [], failures := [] }
  have hk₂ : k₂.Orderly := hk.tried [] []
  have hstart : (Workspace.start k.start k.backup k.targets).Accounted k₁ [] :=
    ⟨⟨confined_refl hroot, nofun, nofun, nofun⟩, nofun, .nil, .nil, nofun,
      fun p hp => absurd hp (hnone p)⟩
  have hstaged := Pass.run_keeps Target.path (fun _ => Workspace.stage) policy []
    (fun w => w.Accounted k₁ [] ∧ w.trash = [])
    (fun _ c hc _ h => h.1.stage (fun _ => trivial) hc (hk.target c hc).bound h.2) ⟨hstart, rfl⟩
  have hloose : Workspace.Accounted k₂ [] _ := hstaged.1.loosen fun _ _ => trivial
  unfold atomic at hs ⊢
  dsimp only at hs ⊢
  split at hs
  · cases hs
  · split at hs
    · next hhalted =>
      obtain rfl := Except.ok.inj hs
      rw [if_pos hhalted]
      refine ⟨[], _, rfl, fun p hp => ?_⟩
      obtain ⟨c, hc, hleaves⟩ := hloose.discard hk₂.way p hp
      exact ⟨c, hc, hleaves.mono (List.nil_sublist _) (List.nil_subset _)⟩
    · next hhalted =>
      obtain ⟨tried, more, success, htried, rfl, hlitter⟩ := promote_litter hloose hk₂ hs
      rw [if_neg hhalted]
      refine ⟨success, _, by rw [List.append_assoc], fun p hp => ?_⟩
      obtain ⟨c, hc, hleaves⟩ := hlitter p hp
      exact ⟨c, hc, hleaves.mono htried.sublist (List.subset_append_right _ _)⟩

section Whole

variable {base : RealPath} {changes : List Change} {options : Options}

/-- No name that the changes go by, and no name on a link, is that of a temporary file. -/
structure Distinct (t : FileTree) (base : RealPath) (backup : Option Text) (changes : List Change) :
    Prop where
  root : ∀ n ∈ base.path, '/' ∉ n ∧ ¬TempPrefixed n
  paths : ∀ c ∈ changes, ∀ n ∈ Path.pieces c.path, ¬TempPrefixed n
  links : t.LinksNamed (¬TempPrefixed ·)
  kept : ∀ ext, backup = some ext → '/' ∉ ext ∧ (base.path = [] → ¬TempPrefixed (Backup.dotted ext))

def Aimed (t : FileTree) (base : RealPath) (changes : List Change) (c : Target) : Prop :=
  c.change ∈ changes ∧ c.change.resolve t base = .ok c

theorem Distinct.dest (h : Distinct t base options.backupExt changes) (hc : Aimed t base changes c) :
    ∀ n ∈ c.dest, '/' ∉ n ∧ ¬TempPrefixed n := by
  have hpieces : ∀ n ∈ Path.pieces c.change.path, '/' ∉ n ∧ ¬TempPrefixed n :=
    fun n hn => ⟨Text.not_mem_of_mem_splitOn hn, h.paths _ hc.1 n hn⟩
  cases (Change.resolve_cases hc.2).2 with
  | made _ hp =>
    obtain ⟨-, hp⟩ := Path.resolve?_eq_some.1 (RealPath.resolve?_eq_some hp)
    rw [← hp]
    exact Path.forall_mem_walk h.root hpieces
  | found _ hr _ hp =>
    rw [← hp]
    refine realPath_named (P := fun n => '/' ∉ n ∧ ¬TempPrefixed n) (fun p target hl n hn => ?_) hr ?_
    · exact ⟨Text.not_mem_of_mem_splitOn hn, h.links p target hl n hn⟩
    · exact List.forall_mem_append.2 ⟨h.root, fun n hn => hpieces n (List.mem_filter.1 hn).1⟩

theorem Distinct.orderly (h : Distinct t base options.backupExt changes) (hb : Path.Plain base.path)
    (hc : Aimed t base changes c)
    (hfound : c.action ≠ .create → ∀ q, t.Enters c.dest q → t.NoLink q) :
    c.Orderly t options.backupExt := by
  obtain ⟨hplain, hwithin⟩ := Change.resolve_within hb hc.2
  have hdest := h.dest hc
  constructor
  case bound => exact .within_root hplain hfound
  case names => exact fun n hn => (hdest n hn).2
  case kept =>
    intro ext hext _ _
    obtain ⟨hslash, hroot⟩ := h.kept ext hext
    refine Backup.not_tempPrefixed_names hdest hplain hslash fun he => hroot ?_
    exact List.prefix_nil.1 (he ▸ hwithin)

section Links

variable (hnames : Distinct t base options.backupExt changes)
  (hfound : ∀ c, Aimed t base changes c → c.action ≠ .create → ∀ q, t.Enters c.dest q → t.NoLink q)
  (hway : ∀ c c', Aimed t base changes c → Aimed t base changes c' → c.action = .create →
    ∀ q, t.Enters c.dest q → ¬t.Follows [] c'.dest.parent q)
include hnames hfound hway

theorem Distinct.batch (hb : Path.Plain base.path) {targets : List Target}
    (haimed : ∀ c ∈ targets, Aimed t base changes c) :
    Batch.Orderly {
      start := t
      firm := fun q => ∀ c ∈ targets, c.action = .create → ¬t.Enters c.dest q
      backup := options.backupExt
      targets := targets } where
  target c hc := hnames.orderly hb (haimed c hc) (hfound c (haimed c hc))
  links := hnames.links
  way c hc q hq c' hc' ha he := hway c' c (haimed c' hc') (haimed c hc) ha q he hq
  entry c hc q hq hfirm := by
    by_cases ha : c.action = .create
    · exact absurd hq (hfirm c hc ha)
    · exact hfound c (haimed c hc) ha q hq

/-- Whatever comes of a commit, it leaves no temporary file, unless it was to be atomic and the file
could not be moved, or what it was to replace could not, or the file is forgotten for another that is
set aside at the same place. No change may replace a link that the way to one of them goes by, and no
link may be left on the resolved path of a file that should be there. -/
theorem run_swept {names : List Name} {policy : Policy} {s : Summary} (hroot : t.Rooted)
    (hb : t.realPath names = .ok base) (hnone : ∀ p, ¬t.Litter p)
    (hs : (run t names changes policy options).outcome = .ok s) :
    ∃ (targets : List Target) (success : List Text) (failures : List (Text × Failure)),
      (targets.map Target.change).Sublist changes ∧
      (∀ c ∈ targets, Aimed t base changes c) ∧ s = .of options.dryRun success failures ∧
      ∀ p, (run t names changes policy options).tree.Litter p →
        options.atomic = true ∧ options.dryRun = false ∧
          ∃ c ∈ targets, c.Leaves t options.backupExt targets failures p := by
  obtain ⟨as, has, hmap⟩ :=
    Pass.done_ofExcept Change.path policy [] (Change.resolve t base) changes ()
  obtain ⟨rfl, hres⟩ := Change.change_resolve_all hmap
  have haimed : ∀ c ∈ (Pass.run policy Change.path (fun _ c => ofExcept (c.resolve t base)) [] changes
      ()).done, Aimed t base changes c :=
    fun c hc => ⟨has.subset (List.mem_map_of_mem hc), hres c hc⟩
  have hk := hnames.batch hfound hway (realPath_plain hb) haimed
  rw [run_eq_runAt hb] at hs ⊢
  unfold runAt at hs ⊢
  dsimp only at hs ⊢
  generalize Pass.run policy Change.path (fun _ c => ofExcept (c.resolve t base)) [] changes () =
    resolved at hs has haimed hk ⊢
  split at hs
  · cases hs
  · split at hs
    · next hhalted =>
      rw [if_pos hhalted]
      exact ⟨_, _, _, has, haimed, (Except.ok.inj hs).symm, fun p hp => absurd hp (hnone p)⟩
    · next hhalted =>
      rw [if_neg hhalted]
      split at hs
      · next hdry =>
        rw [if_pos hdry]
        obtain rfl := Except.ok.inj hs
        rw [hdry]
        exact ⟨_, _, _, has, haimed, rfl, fun p hp => absurd hp (hnone p)⟩
      · next hdry =>
        rw [if_neg hdry]
        rw [Bool.not_eq_true] at hdry
        rw [hdry]
        split at hs
        · next hatomic =>
          obtain ⟨success, more, rfl, hlitter⟩ := atomic_litter hk hroot hnone hs
          rw [if_pos hatomic]
          refine ⟨_, _, _, has, haimed, rfl, fun p hp => ⟨hatomic, rfl, ?_⟩⟩
          obtain ⟨c, hc, hleaves⟩ := hlitter p hp
          exact ⟨c, hc, hleaves.mono (List.Sublist.refl _) (List.subset_append_right _ _)⟩
        · next hdirect =>
          obtain ⟨success, more, rfl, hclean⟩ := direct_litter hk hroot hnone hs
          rw [if_neg hdirect]
          exact ⟨_, _, _, has, haimed, rfl, fun p hp => absurd hp (hclean p)⟩

end Links

theorem run_swept_halted :
    let base : Path := ["w".toList]
    let t := (FileTree.empty.put base .dir).put (base ++ ["a".toList]) (.file "x".toUTF8)
    let changes : List Change :=
      [⟨.delete, "a".toList, none, none⟩, ⟨.create, "d/n".toList, some "n".toList, none⟩,
        ⟨.modify, "b".toList, some "y".toList, none⟩]
    let made := run t base changes .failFast { policy := some .failFast, atomic := true }
    made.outcome.map Summary.failed = .ok ["b".toList] ∧
      made.tree.get? (base ++ ["a".toList]) = some (.file "x".toUTF8) ∧
      ∀ p, ¬made.tree.Litter p := by
  intro base t changes made
  have hroot : t.Rooted := by
    have hbase : (FileTree.empty.put base .dir).Rooted :=
      rooted_empty.put (p := []) rfl (by decide)
    exact hbase.put (p := base) (by decide +kernel) (by decide +kernel)
  have hlinks : t.LinkFree := (linkFree_empty.put (by decide) (by simp)).put (by decide) (by simp)
  have hnone : ∀ p, ¬t.Litter p := by
    intro p hp
    have hput := (Tidy.put (by decide)).litter p hp
    exact not_litter_empty (hput.of_put_dir (by decide))
  have hnames : Distinct t ⟨base, false⟩ none changes :=
    ⟨by decide, by decide, hlinks.linksNamed _, nofun⟩
  have houtcome : made.outcome = .ok ⟨[], ["b".toList],
      [("b".toList, "File expected for modification not found: 'b'".toList)], [], false⟩ := by
    decide +kernel
  refine ⟨by rw [houtcome]; rfl, by decide +kernel, fun p hp => ?_⟩
  obtain ⟨targets, success, failures, htargets, -, hs, hlitter⟩ :=
    run_swept hnames (fun _ _ _ q _ target => hlinks q target)
      (fun _ _ _ _ _ q _ hq => hq.exists_link.elim fun target hl => hlinks q target hl) hroot rfl hnone
      houtcome
  obtain ⟨-, -, c, -, _, _, _, -, -, hstrands⟩ := hlitter p hp
  obtain ⟨f, rfl, -⟩ := List.map_eq_singleton_iff.1 (congrArg Summary.failed hs).symm
  have hmessage : "File expected for modification not found: 'b'".toList = f.2.message :=
    congrArg Prod.snd (List.singleton_inj.1 (congrArg Summary.errors hs))
  have hcall {code : Errno} {p q : Path} (hf : f.2 = .call (.between code p q)) : False := by
    rw [hf] at hmessage
    cases hmessage
  cases hstrands with
  | promoted h => exact hcall (congrArg Prod.snd (List.mem_singleton.1 h)).symm
  | setAside h => exact hcall (congrArg Prod.snd (List.mem_singleton.1 h)).symm
  | backedUp h => cases h
  | forgotten h _ hc hc' =>
    -- Only one change sets a file aside.
    have hcount := ((h.map Target.change).trans htargets).countP_le
      (p := fun c => c.action = .delete ∧ c.former = none)
    have hset {c : Target} (hc : c.DeletesUnknown) :
        c.change.action = .delete ∧ c.change.former = none := hc
    simp only [List.map_cons, List.map_nil, List.countP_cons, List.countP_nil, hset hc, hset hc',
      and_self, decide_true, if_true] at hcount
    revert hcount
    decide

/-- What is to be made stays behind where a directory stands at its place. -/
theorem not_run_swept_directory :
    ¬∀ (t : FileTree) (base : RealPath) (names : List Name) (changes : List Change) (policy : Policy)
      (options : Options) (s : Summary), t.Rooted → t.LinkFree → t.realPath names = .ok base →
        t.get? base.path = some .dir → Distinct t base options.backupExt changes →
        (∀ p, ¬t.Litter p) → (run t names changes policy options).outcome = .ok s →
        ∀ p, ¬(run t names changes policy options).tree.Litter p := by
  intro h
  let base : Path := ["w".toList]
  let t := (FileTree.empty.put base .dir).put (base ++ ["d".toList]) .dir
  let changes : List Change := [⟨.create, "d".toList, some "x".toList, none⟩]
  have hroot : t.Rooted := by
    have hbase : (FileTree.empty.put base .dir).Rooted :=
      rooted_empty.put (p := []) rfl (by decide)
    exact hbase.put (p := base) (by decide +kernel) (by decide +kernel)
  have hlinks : t.LinkFree := (linkFree_empty.put (by decide) (by simp)).put (by decide) (by simp)
  have hnone : ∀ p, ¬t.Litter p :=
    fun p hp => not_litter_empty ((hp.of_put_dir (by decide)).of_put_dir (by decide))
  have hnames : Distinct t ⟨base, false⟩ none changes :=
    ⟨by decide, by decide, hlinks.linksNamed _, nofun⟩
  have houtcome : (run t base changes .bestEffort { policy := some .bestEffort, atomic := true }).outcome =
      .ok ⟨[], ["d".toList],
        [("d".toList, "[Errno 21] Is a directory: '/w/.v4a-00000003.tmp' -> '/w/d'".toList)], [], false⟩ := by
    decide +kernel
  have hclean := h t ⟨base, false⟩ base changes .bestEffort _ _ hroot hlinks rfl (by decide +kernel)
    hnames hnone houtcome
  refine hclean (base ++ [tempName .staged 3]) ⟨⟨base, _, .staged, rfl⟩, "x".toUTF8, ?_⟩
  decide +kernel

end Whole

end Commit

end Emend
