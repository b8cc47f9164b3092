import Emend.Proofs.Apply.Success
import Emend.Proofs.Commit.Backup

namespace Emend

open FileTree

section Split

variable {t t' : FileTree} {base : RealPath} {rules : Option Rules} {op : Operation} {e : Effect}
  {ops before after : List Operation} {es : List Effect} {targets : List Target}

theorem RealPath.get?_of_find (hl : t.LinkFree) (hb : Path.Plain base.path) {path : Text} {p : Path}
    {e : Entry} (hp : base.resolve? path = some p) (hfind : t.find p = .ok e) : t.get? p = some e :=
  ((find_eq_ok hl (hb.resolve? (resolve?_eq_some hp))).1 hfind).2.2

/-- What the operation gives a path: a new file the lines behind its plus signs, an updated one the patched
text of what it held, where it is moved to if it is. -/
inductive Operation.Gives (t : FileTree) (base : RealPath) : Operation → Path → Text → Prop
  | add {path : Text} {body : List Line} {p : Path} (hp : base.resolve? path = some p) :
      Gives t base (.add path body) p (Text.ofLines (body.filterMap (Text.after? ['+'])))
  | update {path former text : Text} {body : List Line} {p : Path} {n : Nat}
      (hp : base.resolve? path = some p) (hformer : t.get? p = some (.file former.encode))
      (hbody : (Patched.updateFile former (Text.ofLines body)).outcome = .ok (text, n)) :
      Gives t base (.update path body none) p text
  | move {path newPath former text : Text} {body : List Line} {p dest : Path} {n : Nat}
      (hp : base.resolve? path = some p) (hdest : base.resolve? newPath = some dest)
      (hformer : t.get? p = some (.file former.encode))
      (hbody : (Patched.updateFile former (Text.ofLines body)).outcome = .ok (text, n)) :
      Gives t base (.update path body (some newPath)) dest text

namespace Operation.Works

variable (h : op.Works t base rules e)
include h

theorem exists_gives (hl : t.LinkFree) (hb : Path.Plain base.path)
    (hbody : ∀ l ∈ op.body, Writable l ∧ Header.isBody l = true) (hop : ∀ path, op ≠ .delete path) :
    ∃ c rest p text, e.changes = c :: rest ∧ (∀ c' ∈ rest, c'.action = .delete) ∧ c.action ≠ .delete ∧
      c.content = some text ∧ base.resolve? c.path = some p ∧ op.Gives t base p text := by
  cases h with
  | add hp _ hcreate =>
    have hp := Draft.guarded_eq_ok hp
    obtain rfl := Patched.create_eq_ok hbody hcreate
    exact ⟨_, [], _, _, rfl, nofun, nofun, rfl, hp, .add hp⟩
  | delete => exact absurd rfl (hop _)
  | update hp hfind hupdate =>
    have hp := Draft.guarded_eq_ok hp
    have hformer := base.get?_of_find hl hb hp hfind
    exact ⟨_, [], _, _, rfl, nofun, nofun, rfl, hp, .update hp hformer hupdate⟩
  | move hp hfind hupdate hdest =>
    have hp := Draft.guarded_eq_ok hp
    have hdest := Draft.guarded_eq_ok hdest
    have hformer := base.get?_of_find hl hb hp hfind
    refine ⟨_, _, _, _, rfl, ?_, nofun, rfl, hdest, .move hp hdest hformer hupdate⟩
    exact List.forall_mem_singleton.2 rfl

end Operation.Works

theorem Draft.exists_works_append
    (hall : List.Forall₂ (Operation.Works t base rules) (before ++ op :: after) es) :
    ∃ es₁ e es₂, es = es₁ ++ e :: es₂ ∧ op.Works t base rules e ∧
      List.Forall₂ (Operation.Works t base rules) after es₂ := by
  have hdrop := List.forall₂_drop before.length hall
  rw [List.drop_left] at hdrop
  obtain ⟨e, es₂, hw, hafter, he⟩ := List.forall₂_cons_left_iff.1 hdrop
  exact ⟨es.take before.length, e, es₂, by rw [← he, List.take_append_drop], hw, hafter⟩

end Split

/-- What is kept of the files that are updated and what the operations give are there, each unless a
later operation is in its way. -/
structure BackedUp (t : FileTree) (base : RealPath) (ext : Text) (ops : List Operation) (t' : FileTree) :
    Prop where
  backups : ∀ before after path body, ops = before ++ .update path body none :: after →
    ∃ p former, base.resolve? path = some p ∧ t.get? p = some (.file former) ∧
      ((∀ op ∈ after, ∀ path ∈ op.paths, base.resolve? path ≠ some (Backup.place p ext)) →
        t'.get? (Backup.place p ext) = some (.file former))
  given : ∀ before op after, ops = before ++ op :: after → (∀ path, op ≠ .delete path) →
    ∃ p text, op.Gives t base p text ∧
      ((∀ path body q, .update path body none ∈ after → base.resolve? path = some q →
          Backup.place q ext ≠ p) →
        t'.get? p = some (.file text.encode))

namespace WorkedOut

variable {t t' : FileTree} {base : RealPath} {rules : Option Rules} {ops before after : List Operation}
  {op : Operation} {es : List Effect} {d : Draft} {targets : List Target} {ext : Text}
  (h : WorkedOut t base rules ops es d targets) (hl : t.LinkFree) (hb : Path.Plain base.path)
include h hl hb

theorem exists_targets (hops : ops = before ++ op :: after) :
    ∃ e, op.Works t base rules e ∧
      ∀ c rest p, e.changes = c :: rest → base.resolve? c.path = some p →
        ∃ ts₁ ts₂, targets = ts₁ ++ ⟨c, p⟩ :: ts₂ ∧ ∀ c₂ ∈ ts₂, c₂.change ∈ rest ∨
          ∃ op' ∈ after, ∃ e', op'.Works t base rules e' ∧ c₂.change ∈ e'.changes := by
  obtain ⟨es₁, e, es₂, hes, hw, hafter⟩ := Draft.exists_works_append (hops ▸ h.works)
  refine ⟨e, hw, fun c rest p hchanges hp => ?_⟩
  obtain ⟨htargets, -, hdests⟩ := Change.resolve_all hl hb h.resolved
  rw [h.draft.changes, hes, List.flatMap_append, List.flatMap_cons, hchanges, List.cons_append] at htargets
  obtain ⟨ts₁, ts, rfl, -, hts⟩ := List.map_eq_append_iff.1 htargets
  obtain ⟨⟨c, dest⟩, ts₂, rfl, rfl, hts₂⟩ := List.map_eq_cons_iff.1 hts
  obtain rfl : dest = p := Option.some.inj ((hdests ⟨c, dest⟩ (by simp)).symm.trans hp)
  refine ⟨ts₁, ts₂, rfl, fun c₂ hc₂ => ?_⟩
  have hmem : c₂.change ∈ rest ++ es₂.flatMap Effect.changes := hts₂ ▸ List.mem_map_of_mem hc₂
  obtain hmem | hmem := List.mem_append.1 hmem
  · exact .inl hmem
  · obtain ⟨e', he', hc'⟩ := List.mem_flatMap.1 hmem
    obtain ⟨op', hop', hw'⟩ := Draft.works_of_effect hafter he'
    exact .inr ⟨op', hop', e', hw', hc'⟩

theorem dest_ne {ts₁ ts₂ : List Target} {c₁ c₂ : Target} (hsplit : targets = ts₁ ++ c₁ :: ts₂)
    (hc₂ : c₂ ∈ ts₂) : c₁.dest ≠ c₂.dest := by
  have hapart := (h.planned hl hb).apart
  rw [hsplit] at hapart
  exact (List.pairwise_cons.1 (List.pairwise_append.1 hapart).2.1).1 c₂ hc₂

section Standing

variable (hstanding : Standing ext targets t')
include hstanding

/-- A backup stays where no later operation has a path. -/
theorem backup_stands {path : Text} {body : List Line}
    (hops : ops = before ++ .update path body none :: after) :
    ∃ p former, base.resolve? path = some p ∧ t.get? p = some (.file former) ∧
      ((∀ op ∈ after, ∀ path ∈ op.paths, base.resolve? path ≠ some (Backup.place p ext)) →
        t'.get? (Backup.place p ext) = some (.file former)) := by
  have hplanned := h.planned hl hb
  obtain ⟨-, -, hdests⟩ := Change.resolve_all hl hb h.resolved
  obtain ⟨e, hw, htargets⟩ := h.exists_targets hl hb hops
  cases hw with
  | @update _ former text _ p n hp hfind hupdate =>
    have hp := Draft.guarded_eq_ok hp
    obtain ⟨ts₁, ts₂, hsplit, hlater⟩ := htargets _ _ p rfl hp
    have hformer := base.get?_of_find hl hb hp hfind
    refine ⟨p, _, hp, hformer, fun hfree => hstanding _ _ ⟨hsplit, .backup rfl rfl, ?_⟩⟩
    intro c₂ hc₂ htouches
    have hmem₂ : c₂ ∈ targets := by simp [hsplit, hc₂]
    obtain hplace | ⟨ha₂, hplace⟩ := htouches
    · obtain hnil | ⟨op, hop, e, hw, hc⟩ := hlater c₂ hc₂
      · cases hnil
      · exact hfree op hop _ (hw.path_mem hc) ((hdests c₂ hmem₂).trans (congrArg some hplace.symm))
    · -- Two files with one backup would be one file.
      obtain ⟨_, -, -, hformer₂⟩ := (hplanned.sound c₂ hmem₂).modified hl (hplanned.plain c₂ hmem₂) ha₂
      refine h.dest_ne hl hb hsplit hc₂ (Backup.place_inj ?_ ?_ hplace)
      · exact ne_nil_of_get? hformer nofun
      · exact ne_nil_of_get? hformer₂ nofun

theorem given_stands (hbody : ∀ l ∈ op.body, Writable l ∧ Header.isBody l = true)
    (hops : ops = before ++ op :: after) (hop : ∀ path, op ≠ .delete path) :
    ∃ p text, op.Gives t base p text ∧
      ((∀ path body q, .update path body none ∈ after → base.resolve? path = some q →
          Backup.place q ext ≠ p) →
        t'.get? p = some (.file text.encode)) := by
  obtain ⟨-, -, hdests⟩ := Change.resolve_all hl hb h.resolved
  obtain ⟨e, hw, htargets⟩ := h.exists_targets hl hb hops
  obtain ⟨c, rest, p, text, hchanges, hrest, hwrites, hcontent, hp, hgives⟩ :=
    hw.exists_gives hl hb hbody hop
  obtain ⟨ts₁, ts₂, hsplit, hlater⟩ := htargets c rest p hchanges hp
  refine ⟨p, text, hgives, fun hfree => ?_⟩
  have hbytes : Target.bytes ⟨c, p⟩ = text.encode := by rw [Target.bytes, Change.text, hcontent]; rfl
  rw [← hbytes]
  refine hstanding _ _ ⟨hsplit, .content hwrites, fun c₂ hc₂ htouches => ?_⟩
  obtain hdest | ⟨ha₂, hplace⟩ := htouches
  · exact h.dest_ne hl hb hsplit hc₂ hdest
  · obtain hc | ⟨op', hop', e', hw', hc⟩ := hlater c₂ hc₂
    · exact nomatch (hrest _ hc).symm.trans ha₂
    · obtain ⟨body, rfl⟩ := hw'.eq_update hc ha₂
      exact hfree _ _ _ hop' (hdests c₂ (by simp [hsplit, hc₂])) hplace.symm

theorem backedUp (hbody : ∀ op ∈ ops, ∀ l ∈ op.body, Writable l ∧ Header.isBody l = true) :
    BackedUp t base ext ops t' where
  backups _ _ _ _ hops := h.backup_stands hl hb hstanding hops
  given _ op _ hops hop := h.given_stands hl hb hstanding (hbody op (by simp [hops])) hops hop

end Standing

end WorkedOut

namespace Applied

variable {t : FileTree} {s : Summary} {patch ext : Text} {respectRules : Bool} {options : Options}

/-- If a patch is applied with backups and no failure is reported, the former content of each file that is
updated in place is beside it, and each file that is added, updated or moved to has its content: unless a
later operation is at the path of the backup, or keeps there what it updates. -/
theorem ofPatch_backs_up (hl : t.LinkFree) (hroot : t.Rooted) (hdry : options.dryRun = false)
    (hbackup : options.backupExt = some ext) (hext : ext ≠ []) (hslash : '/' ∉ ext) (names : List Name)
    (hnames : ∀ n ∈ names, '/' ∉ n) :
    let applied := ofPatch t names patch options respectRules
    applied.outcome = .ok s → s.failed = [] →
      ∃ base ops, t.realPath names = .ok base ∧ Envelope.read patch = .ok ops ∧
        BackedUp t base ext ops applied.tree := by
  intro applied hs hf
  obtain ⟨base, hr⟩ := realPath_of_ofPatch hs
  have happlied : applied = ofPatchAt t base patch options respectRules := ofPatch_eq_ofPatchAt hr
  obtain rfl := realPath_eq_ok hl hr
  have hb := Path.plain_nil.walk names
  rw [happlied] at hs ⊢
  obtain ⟨policy, rules, ops, es, d, targets, made, -, hr', -, hread, -, hw, hmade, rfl, htree⟩ :=
    ofPatchAt_works hl hb hs hf
  have hstanding := Commit.run_stands hl hroot hext hslash hdry hbackup hr' hw.resolved
    (hw.planned hl hb) (Path.forall_mem_walk nofun hnames) hmade hf
  rw [htree]
  exact ⟨_, ops, hr, hread, hw.backedUp hl hb hstanding (Envelope.read_body hread)⟩

theorem ofPatch_backs_up_moved :
    let t := (FileTree.empty.put ["a".toList] (.file "x\n".toUTF8)).put ["a.bak".toList]
      (.file "u\n".toUTF8)
    let patch := Text.ofLines <| List.map String.toList ["*** Begin Patch", "*** Update File: a.bak",
      "*** Move to: c", "-u", "+v", "*** Update File: a", "-x", "+y", "*** Add File: n", "+new",
      "*** End Patch"]
    let options : Options := { policy := some .failFast, atomic := true, backupExt := some "bak".toList }
    let applied := ofPatch t [] patch options false
    ∃ s, applied.outcome = .ok s ∧ s.failed = [] ∧
      ∃ base ops, t.realPath [] = .ok base ∧ Envelope.read patch = .ok ops ∧
        BackedUp t base "bak".toList ops applied.tree := by
  intro t patch options applied
  have hlinks : t.LinkFree := (linkFree_empty.put (by simp) (by simp)).put (by simp) (by simp)
  have hroot : t.Rooted := by
    have ha := rooted_empty.put (p := []) (n := "a".toList) (e := .file "x\n".toUTF8) rfl (by decide)
    exact ha.put (p := []) rfl (by decide)
  have hfailed : applied.outcome.map Summary.failed = .ok [] := by decide +kernel
  obtain ⟨s, hs, hf⟩ := Except.map_eq_ok.1 hfailed
  exact ⟨s, hs, hf,
    ofPatch_backs_up hlinks hroot rfl rfl (by decide) (by decide) [] nofun hs hf⟩

/-- A second file is where the backup of the first one goes. It is moved away, and the backup is lost. -/
theorem not_ofPatch_backs_up :
    ¬∀ (t : FileTree) (patch ext : Text) (options : Options) (ops : List Operation) (s : Summary),
      t.LinkFree → t.Rooted → options.dryRun = false → options.backupExt = some ext → ext ≠ [] →
      '/' ∉ ext → Envelope.read patch = .ok ops → (ofPatch t [] patch options false).outcome = .ok s →
      s.failed = [] →
        (∀ path body p b, .update path body none ∈ ops → RealPath.resolve? ⟨[], false⟩ path = some p →
          t.get? p = some (.file b) →
          (ofPatch t [] patch options false).tree.get? (Backup.place p ext) = some (.file b)) ∧
        ∀ op ∈ ops, ∀ p text, op.Gives t ⟨[], false⟩ p text →
          (ofPatch t [] patch options false).tree.get? p = some (.file text.encode) := by
  intro hall
  let t := (FileTree.empty.put ["a".toList] (.file "x\n".toUTF8)).put ["a.bak".toList]
    (.file "u\n".toUTF8)
  let patch := Text.ofLines <| List.map String.toList ["*** Begin Patch", "*** Update File: a", "-x",
    "+y", "*** Update File: a.bak", "*** Move to: c", "-u", "+v", "*** End Patch"]
  let options : Options := { policy := some .failFast, atomic := true, backupExt := some "bak".toList }
  let ops := [Operation.update "a".toList ["-x".toList, "+y".toList] none,
    .update "a.bak".toList ["-u".toList, "+v".toList] (some "c".toList)]
  have hlinks : t.LinkFree := (linkFree_empty.put (by simp) (by simp)).put (by simp) (by simp)
  have hroot : t.Rooted := by
    have ha := rooted_empty.put (p := []) (n := "a".toList) (e := .file "x\n".toUTF8) rfl (by decide)
    exact ha.put (p := []) rfl (by decide)
  have hfailed : (ofPatch t [] patch options false).outcome.map Summary.failed = .ok [] := by
    decide +kernel
  obtain ⟨s, hs, hf⟩ := Except.map_eq_ok.1 hfailed
  obtain ⟨hbackups, -⟩ := hall t patch "bak".toList options ops s hlinks hroot rfl rfl (by decide)
    (by decide) (by decide +kernel) hs hf
  have hkept := hbackups "a".toList ["-x".toList, "+y".toList] ["a".toList] "x\n".toUTF8
    List.mem_cons_self (by decide +kernel) (by decide +kernel)
  revert hkept
  decide +kernel

end Applied

end Emend
