import Emend.Proofs.Commit.Success
import Emend.Proofs.Draft
import Emend.Proofs.Envelope

namespace Emend

open FileTree

namespace Operation

def paths (op : Operation) : List Text := op.path :: op.moveTo?.toList

def made : Operation → List Text
  | add path _ => [path]
  | update _ _ (some newPath) => [newPath]
  | _ => []

/-- The paths of the changes that the operation comes to. A move makes the new file first. -/
def changed : Operation → List Text
  | add path _ => [path]
  | update path _ none => [path]
  | update path _ (some newPath) => [newPath, path]
  | delete path => [path]

def updated : Operation → List Text
  | update path _ _ => [path]
  | _ => []

/-- What the operation has come to: a new file holds the lines behind its plus signs, an updated one the
patched text of what it held, and none is left where one was deleted or moved away. -/
inductive Done (t : FileTree) (base : RealPath) (fuzz : Ledger Text Nat) (t' : FileTree) :
    Operation → Prop
  | add {path : Text} {body : List Line} {p : Path} (hp : base.resolve? path = some p)
      (hfile : t'.get? p =
        some (.file (Text.ofLines (body.filterMap (Text.after? ['+']))).encode)) :
      Done t base fuzz t' (.add path body)
  | delete {path : Text} {p : Path} (hp : base.resolve? path = some p)
      (hgone : ∀ b, t'.get? p ≠ some (.file b)) : Done t base fuzz t' (.delete path)
  | update {path former text : Text} {body : List Line} {p : Path} {n : Nat}
      (hp : base.resolve? path = some p) (hformer : t.get? p = some (.file former.encode))
      (hbody : (Patched.updateFile former (Text.ofLines body)).outcome = .ok (text, n))
      (hfile : t'.get? p = some (.file text.encode)) (hfuzz : fuzz.lookup path = some n) :
      Done t base fuzz t' (.update path body none)
  | move {path newPath former text : Text} {body : List Line} {p dest : Path} {n : Nat}
      (hp : base.resolve? path = some p) (hdest : base.resolve? newPath = some dest)
      (hformer : t.get? p = some (.file former.encode))
      (hbody : (Patched.updateFile former (Text.ofLines body)).outcome = .ok (text, n))
      (hfile : t'.get? dest = some (.file text.encode)) (hgone : ∀ b, t'.get? p ≠ some (.file b))
      (hfuzz : fuzz.lookup path = some n) : Done t base fuzz t' (.update path body (some newPath))

end Operation

/-- The operations have been applied to the tree, and nothing else has. -/
structure Completed (t : FileTree) (base : RealPath) (ops : List Operation) (s : Summary)
    (t' : FileTree) : Prop where
  done : ∀ op ∈ ops, op.Done t base s.fuzz t'
  /-- Any other file or link is as it was, and no other has been made. -/
  others : ∀ p, (∀ op ∈ ops, ∀ path ∈ op.paths, base.resolve? path ≠ some p) → ∀ e, e ≠ .dir →
    (t'.get? p = some e ↔ t.get? p = some e)
  /-- Directories have been made above new files only. -/
  dirs : ∀ p, t'.get? p = some .dir ↔ t.get? p = some .dir ∨
    ∃ op ∈ ops, ∃ path ∈ op.made, ∃ q, base.resolve? path = some q ∧ p <+: q.parent
  success : s.success = ops.flatMap Operation.changed
  fuzz : s.fuzz.keys = ops.flatMap Operation.updated

section Effects

variable {t t' : FileTree} {base : RealPath} {rules : Option Rules} {op : Operation} {e : Effect}
  {ops : List Operation} {es : List Effect} {targets : List Target} {c : Change} {p : Path}

namespace Operation.Works

variable (h : op.Works t base rules e)
include h

theorem changes_path : e.changes.map Change.path = op.changed := by
  cases h <;> rfl

theorem fuzz_keys : e.fuzz.keys = op.updated := by
  cases h <;> rfl

theorem path_mem (hc : c ∈ e.changes) : c.path ∈ op.paths := by
  have hmem : c.path ∈ op.changed := h.changes_path ▸ List.mem_map_of_mem hc
  cases h with
  | move => simpa [changed, paths, Operation.path, moveTo?, or_comm] using hmem
  | _ => simpa [changed, paths, Operation.path, moveTo?] using hmem

theorem path_mem_made (hc : c ∈ e.changes) (ha : c.action = .create) : c.path ∈ op.made := by
  cases h with
  | add =>
    obtain rfl := List.mem_singleton.1 hc
    exact List.mem_cons_self
  | delete =>
    obtain rfl := List.mem_singleton.1 hc
    cases ha
  | update =>
    obtain rfl := List.mem_singleton.1 hc
    cases ha
  | move =>
    obtain rfl | hc := List.mem_cons.1 hc
    · exact List.mem_cons_self
    · obtain rfl := List.mem_singleton.1 hc
      cases ha

theorem eq_update {c : Change} (hc : c ∈ e.changes) (ha : c.action = .modify) :
    ∃ body, op = .update c.path body none := by
  cases h with
  | update =>
    obtain rfl := List.mem_singleton.1 hc
    exact ⟨_, rfl⟩
  | add =>
    obtain rfl := List.mem_singleton.1 hc
    cases ha
  | delete =>
    obtain rfl := List.mem_singleton.1 hc
    cases ha
  | move =>
    obtain rfl | hc := List.mem_cons.1 hc
    · cases ha
    · obtain rfl := List.mem_singleton.1 hc
      cases ha

theorem exists_create {path : Text} (hpath : path ∈ op.made) :
    ∃ c ∈ e.changes, c.action = .create ∧ c.path = path := by
  cases h with
  | add =>
    obtain rfl := List.mem_singleton.1 hpath
    exact ⟨_, List.mem_cons_self, rfl, rfl⟩
  | delete => cases hpath
  | update => cases hpath
  | move =>
    obtain rfl := List.mem_singleton.1 hpath
    exact ⟨_, List.mem_cons_self, rfl, rfl⟩

end Operation.Works

theorem Draft.success_eq (hall : List.Forall₂ (Operation.Works t base rules) ops es) :
    (es.flatMap Effect.changes).map Change.path = ops.flatMap Operation.changed := by
  induction hall with
  | nil => rfl
  | cons hw _ ih => simp [hw.changes_path, ih]

theorem Draft.fuzz_keys_eq (hall : List.Forall₂ (Operation.Works t base rules) ops es) :
    Ledger.keys (es.flatMap Effect.fuzz) = ops.flatMap Operation.updated := by
  unfold Ledger.keys
  induction hall with
  | nil => rfl
  | cons hw _ ih =>
    have hkeys := hw.fuzz_keys
    unfold Ledger.keys at hkeys
    simp [hkeys, ih]

end Effects

section Planned

variable {t t' : FileTree} {targets : List Target} {c : Target} {p : Path}

theorem Target.Sound.cases (h : c.Sound t) :
    c.action = .create ∧ t.has c.dest = false ∨
      c.action ≠ .create ∧ ∃ b, t.find c.dest = .ok (.file b) := by
  cases h with
  | create ha hn => exact .inl ⟨ha, hn⟩
  | known ha hf hfind =>
    refine .inr ⟨fun he => ?_, _, hfind⟩
    rw [he] at ha
    exact ha.elim nofun nofun
  | raw ha hf hfind => exact .inr ⟨(fun he => nomatch he.symm.trans ha), _, hfind⟩

theorem Made.get?_iff_of_ne (hm : Made t targets t') (hne : ∀ c ∈ targets, c.dest ≠ p) {e : Entry} (he : e ≠ .dir) :
    t'.get? p = some e ↔ t.get? p = some e := by
  by_cases habove : Target.Above targets p
  · have hold : t.get? p ≠ some e := by
      obtain hn | hd := hm.passable p habove hne
      · simp [hn]
      · simpa [hd] using he.symm
    simpa [hm.opened p habove, hold] using he.symm
  · rw [hm.others p habove hne]

variable (hl : t.LinkFree) (hplanned : Target.Planned t targets)
include hl hplanned

theorem Target.Planned.above_cases (hp : Target.Above targets p) :
    t.get? p = some .dir ∨ ∃ c ∈ targets, c.action = .create ∧ p <+: c.dest.parent := by
  obtain ⟨c, hc, hw, hp⟩ := hp
  obtain ⟨ha, -⟩ | ⟨-, b, hfind⟩ := (hplanned.sound c hc).cases
  · exact .inr ⟨c, hc, ha, hp⟩
  · obtain ⟨-, hholds, hb⟩ := (find_eq_ok hl (hplanned.plain c hc)).1 hfind
    have hne : p ≠ c.dest := fun he => Path.not_isPrefix_parent (ne_nil_of_get? hb nofun) (he ▸ hp)
    exact .inl (hholds p (hp.trans (List.dropLast_prefix _)) hne)

namespace Made

variable (hm : Made t targets t')
include hm

theorem dest_ne_dir (hroot : t.Rooted) (hc : c ∈ targets) : t.get? c.dest ≠ some .dir := by
  have hp := hplanned.plain c hc
  intro hdir
  obtain ⟨ha, hn⟩ | ⟨-, b, hfind⟩ := (hplanned.sound c hc).cases
  · have hw : c.Writes := by simp [Target.Writes, ha]
    rw [hroot.get?_eq_none hl hp (hm.fits c hc hw) hn] at hdir
    cases hdir
  · rw [((find_eq_ok hl hp).1 hfind).2.2] at hdir
    cases hdir

theorem gone (hc : c ∈ targets) (ha : c.action = .delete) : ∀ b, t'.get? c.dest ≠ some (.file b) := by
  intro b'
  by_cases habove : Target.Above targets c.dest
  · simp [hm.opened _ habove]
  · obtain ⟨ha', -⟩ | ⟨-, b, hfind⟩ := (hplanned.sound c hc).cases
    · exact nomatch ha.symm.trans ha'
    · have hfits : Fits c.dest := ((find_eq_ok hl (hplanned.plain c hc)).1 hfind).1
      simp [hm.removed c hc (fun hw => hw ha) hfits habove]

theorem get?_dir_iff (hroot : t.Rooted) :
    t'.get? p = some .dir ↔
      t.get? p = some .dir ∨ ∃ c ∈ targets, c.action = .create ∧ p <+: c.dest.parent := by
  constructor
  · intro hdir
    by_cases habove : Target.Above targets p
    · exact hplanned.above_cases hl habove
    · by_cases hdest : ∃ c ∈ targets, c.dest = p
      · obtain ⟨c, hc, rfl⟩ := hdest
        by_cases hw : c.Writes
        · rw [hm.written c hc hw] at hdir
          cases hdir
        · have ha : c.action = .delete := by simpa [Target.Writes] using hw
          obtain ⟨ha', -⟩ | ⟨-, b, hfind⟩ := (hplanned.sound c hc).cases
          · simp [ha] at ha'
          · have hfits : Fits c.dest := ((find_eq_ok hl (hplanned.plain c hc)).1 hfind).1
            rw [hm.removed c hc hw hfits habove] at hdir
            cases hdir
      · rw [hm.others p habove fun c hc he => hdest ⟨c, hc, he⟩] at hdir
        exact .inl hdir
  · rintro (hdir | ⟨c, hc, ha, hp⟩)
    · by_cases habove : Target.Above targets p
      · exact hm.opened p habove
      · rw [hm.others p habove, hdir]
        rintro c hc rfl
        exact hm.dest_ne_dir hl hplanned hroot hc hdir
    · have hw : c.Writes := by simp [Target.Writes, ha]
      exact hm.opened p ⟨c, hc, hw, hp⟩

end Made

end Planned

structure WorkedOut (t : FileTree) (base : RealPath) (rules : Option Rules) (ops : List Operation)
    (es : List Effect) (d : Draft) (targets : List Target) : Prop where
  works : List.Forall₂ (Operation.Works t base rules) ops es
  draft : Draft.Comprises base rules es d
  resolved : d.changes.map (Change.resolve t base) = targets.map .ok

section Whole

variable {t t' : FileTree} {base : RealPath} {rules : Option Rules} {ops : List Operation}
  {es : List Effect} {d : Draft} {targets : List Target} {s : Summary}
  (h : WorkedOut t base rules ops es d targets) (hl : t.LinkFree) (hb : Path.Plain base.path)
include h hl hb

theorem WorkedOut.planned : Target.Planned t targets :=
  (h.draft.planned h.works).targets hl hb h.resolved

theorem WorkedOut.paths_eq : targets.map Target.path = ops.flatMap Operation.changed := by
  obtain ⟨hchanges, -, -⟩ := Change.resolve_all hl hb h.resolved
  rw [← Draft.success_eq h.works, ← h.draft.changes, ← hchanges, List.map_map]
  rfl

theorem WorkedOut.mem_targets {e : Effect} {c : Change} {p : Path} (he : e ∈ es) (hc : c ∈ e.changes)
    (hp : base.resolve? c.path = some p) : ⟨c, p⟩ ∈ targets := by
  have hmem : c ∈ d.changes := h.draft.changes ▸ List.mem_flatMap.2 ⟨e, he, hc⟩
  exact Change.mem_of_resolve_all hl hb h.resolved hmem hp

theorem WorkedOut.exists_works {c : Target} (hc : c ∈ targets) :
    base.resolve? c.path = some c.dest ∧
      ∃ op ∈ ops, ∃ e, op.Works t base rules e ∧ c.change ∈ e.changes := by
  obtain ⟨hchanges, -, hdests⟩ := Change.resolve_all hl hb h.resolved
  have hmem : c.change ∈ d.changes := hchanges ▸ List.mem_map_of_mem hc
  rw [h.draft.changes] at hmem
  obtain ⟨e, he, hc'⟩ := List.mem_flatMap.1 hmem
  obtain ⟨op, hop, hw⟩ := Draft.works_of_effect h.works he
  exact ⟨hdests c hc, op, hop, e, hw, hc'⟩

variable (hbody : ∀ op ∈ ops, ∀ l ∈ op.body, Writable l ∧ Header.isBody l = true)
  (hm : Made t targets t') (hfuzz : s.fuzz = d.fuzz)
include hbody hm hfuzz

theorem WorkedOut.done {op : Operation} (hop : op ∈ ops) : op.Done t base s.fuzz t' := by
  have hplanned := h.planned hl hb
  obtain ⟨e, he, hw⟩ := Draft.works_of_operation h.works hop
  have htarget {c : Change} {p : Path} (hc : c ∈ e.changes) (hp : base.resolve? c.path = some p) :
      ⟨c, p⟩ ∈ targets := h.mem_targets hl hb he hc hp
  have hlookup {path : Text} {n : Nat} (hx : (path, n) ∈ e.fuzz) : s.fuzz.lookup path = some n := by
    rw [hfuzz]
    exact h.draft.single _ (h.draft.fuzz ▸ List.mem_flatMap.2 ⟨e, he, hx⟩)
  cases hw with
  | add hp hn hcreate =>
    have hp := Draft.guarded_eq_ok hp
    obtain rfl := Patched.create_eq_ok (hbody _ hop) hcreate
    exact .add hp (hm.written _ (htarget List.mem_cons_self hp) nofun)
  | delete hp hfind =>
    have hp := Draft.guarded_eq_ok hp
    exact .delete hp (hm.gone hl hplanned (htarget List.mem_cons_self hp) rfl)
  | update hp hfind hupdate =>
    have hp := Draft.guarded_eq_ok hp
    have hc := htarget List.mem_cons_self hp
    have hformer := ((find_eq_ok hl (hplanned.plain _ hc)).1 hfind).2.2
    exact .update hp hformer hupdate (hm.written _ hc nofun) (hlookup List.mem_cons_self)
  | move hp hfind hupdate hdest =>
    have hp := Draft.guarded_eq_ok hp
    have hdest := Draft.guarded_eq_ok hdest
    have hc := htarget (List.mem_cons_of_mem _ List.mem_cons_self) hp
    have hformer := ((find_eq_ok hl (hplanned.plain _ hc)).1 hfind).2.2
    exact .move hp hdest hformer hupdate (hm.written _ (htarget List.mem_cons_self hdest) nofun)
      (hm.gone hl hplanned hc rfl) (hlookup List.mem_cons_self)

theorem WorkedOut.completed (hroot : t.Rooted) (hsuccess : s.success = d.changes.map Change.path) :
    Completed t base ops s t' := by
  have hplanned := h.planned hl hb
  constructor
  case done => exact fun op hop => h.done hl hb hbody hm hfuzz hop
  case others =>
    intro p hnone e he
    refine hm.get?_iff_of_ne (fun c hc hdest => ?_) he
    obtain ⟨hp, op, hop, e, hw, hc⟩ := h.exists_works hl hb hc
    exact hnone op hop _ (hw.path_mem hc) (hdest ▸ hp)
  case dirs =>
    intro p
    rw [hm.get?_dir_iff hl hplanned hroot]
    refine or_congr_right ⟨?_, ?_⟩
    · rintro ⟨c, hc, ha, hp⟩
      obtain ⟨hq, op, hop, e, hw, hc⟩ := h.exists_works hl hb hc
      exact ⟨op, hop, _, hw.path_mem_made hc ha, _, hq, hp⟩
    · rintro ⟨op, hop, path, hpath, q, hq, hp⟩
      obtain ⟨e, he, hw⟩ := Draft.works_of_operation h.works hop
      obtain ⟨c, hc, ha, rfl⟩ := hw.exists_create hpath
      exact ⟨_, h.mem_targets hl hb he hc hq, ha, hp⟩
  case success => rw [hsuccess, h.draft.changes, Draft.success_eq h.works]
  case fuzz => rw [hfuzz, h.draft.fuzz, Draft.fuzz_keys_eq h.works]

end Whole

namespace Applied

variable {t : FileTree} {s : Summary} {patch : Text} {respectRules : Bool} {options : Options}

theorem ofPatchAt_works (hl : t.LinkFree) {base : Path} (hb : Path.Plain base)
    (hs : (ofPatchAt t ⟨base, false⟩ patch options respectRules).outcome = .ok s)
    (hf : s.failed = []) :
    ∃ policy rules ops es d targets made, options.policy = some policy ∧
      t.realPath base = .ok ⟨base, false⟩ ∧ Draft.Ruled t ⟨base, false⟩ respectRules rules ∧
      Envelope.read patch = .ok ops ∧ Draft.ofPatch t ⟨base, false⟩ respectRules patch {} = .ok () d ∧
      WorkedOut t ⟨base, false⟩ rules ops es d targets ∧
      (Commit.run t base d.changes policy options).outcome = .ok made ∧
      s = { made with fuzz := d.fuzz } ∧
      (ofPatchAt t ⟨base, false⟩ patch options respectRules).tree =
        (Commit.run t base d.changes policy options).tree := by
  obtain ⟨d, policy, made, hdraft, hpolicy, hmade, rfl, htree⟩ := ofPatchAt_eq_ok hs
  obtain ⟨rules, ops, es, hruled, hread, hall, hd⟩ := (Draft.ofPatch_works _ _ _ _).of_ok hdraft
  obtain ⟨r, hr⟩ := Commit.realPath_of_run hmade
  obtain rfl : r = ⟨base, false⟩ := by
    rw [realPath_eq_ok hl hr, hb.walk_eq, List.nil_append]
  have hres := hmade
  rw [Commit.run_eq_runAt hr] at hres
  obtain ⟨targets, hres⟩ := Commit.resolved_of_runAt hres hf
  exact ⟨policy, rules, ops, es, d, targets, made, hpolicy, hr, hruled, hread, hdraft, ⟨hall, hd, hres⟩,
    hmade, rfl, htree⟩

variable (hl : t.LinkFree) (hroot : t.Rooted) (hdry : options.dryRun = false)
  (hbackup : options.backupExt = none)
include hl hroot hdry hbackup

/-- If no failure is reported, the patch has been worked out and all of its changes have been made. -/
theorem ofPatchAt_makes {base : Path} (hb : Path.Plain base)
    (hs : (ofPatchAt t ⟨base, false⟩ patch options respectRules).outcome = .ok s)
    (hf : s.failed = []) :
    ∃ policy rules ops es d targets, options.policy = some policy ∧
      t.realPath base = .ok ⟨base, false⟩ ∧ Draft.Ruled t ⟨base, false⟩ respectRules rules ∧
      Envelope.read patch = .ok ops ∧ WorkedOut t ⟨base, false⟩ rules ops es d targets ∧
      Made t targets (ofPatchAt t ⟨base, false⟩ patch options respectRules).tree ∧
      (options.atomic = true → Target.AllFeasible t targets) ∧
      s.success = d.changes.map Change.path ∧ s.fuzz = d.fuzz := by
  obtain ⟨policy, rules, ops, es, d, _, made, hpolicy, hr, hruled, hread, -, hw, hmade, rfl, htree⟩ :=
    ofPatchAt_works hl hb hs hf
  have hdistinct : ∀ targets : List Target, d.changes.map (Change.resolve t ⟨base, false⟩) =
      targets.map .ok → targets.Pairwise fun c c' => c.dest ≠ c'.dest :=
    fun _ hres => ((hw.draft.planned hw.works).targets hl hb hres).apart
  obtain ⟨targets, hres, hsuccess, hm, hfeasible⟩ :=
    Commit.run_makes hdry hbackup hl hroot hr hdistinct hmade hf
  rw [htree]
  exact ⟨policy, rules, ops, es, d, targets, hpolicy, hr, hruled, hread, ⟨hw.works, hw.draft, hres⟩, hm,
    hfeasible, hsuccess, rfl⟩

/-- If a patch is applied and no failure is reported, each of its operations has come to what its body
says of the tree as it was before the call, and nothing else has changed. -/
theorem ofPatch_completes (names : List Name) :
    let applied := ofPatch t names patch options respectRules
    applied.outcome = .ok s → s.failed = [] →
      ∃ base ops, t.realPath names = .ok base ∧ Envelope.read patch = .ok ops ∧
        Completed t base ops s applied.tree := by
  intro applied hs hf
  obtain ⟨base, hr⟩ := realPath_of_ofPatch hs
  have happlied : applied = ofPatchAt t base patch options respectRules := ofPatch_eq_ofPatchAt hr
  obtain rfl := realPath_eq_ok hl hr
  have hb := Path.plain_nil.walk names
  rw [happlied] at hs ⊢
  obtain ⟨policy, rules, ops, es, d, targets, -, -, -, hread, hw, hm, -, hsuccess, hfuzz⟩ :=
    ofPatchAt_makes hl hroot hdry hbackup hb hs hf
  exact ⟨_, ops, hr, hread, hw.completed hl hb (Envelope.read_body hread) hm hfuzz hroot hsuccess⟩

omit hl hroot hdry hbackup

/-- A deleted file gives way to the directory of a new one, as the changes are made in place in turn. -/
theorem ofPatch_completes_mixed :
    let raw := FileTree.empty.put ["d".toList] (.file ⟨#[0xff, 0x00]⟩)
    let t := (raw.put ["a".toList] (.file "x\n".toUTF8)).put ["b".toList] (.file "u\nv".toUTF8)
    let patch := Text.ofLines <| List.map String.toList ["*** Begin Patch", "*** Delete File: d",
      "*** Add File: d/n", "+new", "+lines", "*** Update File: a", "@@", "-x", "+y",
      "*** Update File: b", "*** Move to: e/f/b", "@@", " u", "-v", "+w", "*** End Patch"]
    let applied := ofPatch t [] patch { policy := some .bestEffort, atomic := false } false
    ∃ s, applied.outcome = .ok s ∧ s.failed = [] ∧
      ∃ base ops, t.realPath [] = .ok base ∧ Envelope.read patch = .ok ops ∧
        Completed t base ops s applied.tree := by
  intro raw t patch applied
  have hlinks : t.LinkFree :=
    ((linkFree_empty.put (by simp) (by simp)).put (by simp) (by simp)).put (by simp) (by simp)
  have hroot : t.Rooted := by
    have hraw : raw.Rooted := rooted_empty.put (p := []) rfl (by decide)
    have ha := hraw.put (p := []) (n := "a".toList) (e := .file "x\n".toUTF8) rfl (by decide)
    exact ha.put (p := []) rfl (by decide)
  have hfailed : applied.outcome.map Summary.failed = .ok [] := by decide +kernel
  obtain ⟨s, hs, hf⟩ := Except.map_eq_ok.1 hfailed
  exact ⟨s, hs, hf, ofPatch_completes hlinks hroot rfl rfl [] hs hf⟩

end Applied

end Emend
