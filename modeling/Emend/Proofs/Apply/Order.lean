import Mathlib.Data.List.Perm.Basic
import Emend.Proofs.Apply.Success
import Emend.Proofs.Commit.Completion

namespace Emend

open FileTree

section

variable {t t₁ t₂ : FileTree} {targets targets' : List Target} {c : Target} {p : Path}

theorem Target.above_congr (h : ∀ c, c ∈ targets ↔ c ∈ targets') :
    Above targets p ↔ Above targets' p := by
  simp only [Above, h]

theorem Target.Feasible.congr (hf : c.Feasible t targets) (h : ∀ c, c ∈ targets ↔ c ∈ targets') :
    c.Feasible t targets' := by
  cases hf with
  | write ha hopen hshort hnull hfits hfree habove hm =>
    exact .write ha hopen hshort hnull hfits hfree (fun ha => habove ((above_congr h).2 ha)) hm
  | delete ha hnull hfits hb hshort => exact .delete ha hnull hfits hb hshort
  | idle ha hn habove => exact .idle ha hn fun ha => habove ((above_congr h).2 ha)

theorem Target.AllFeasible.perm (hf : AllFeasible t targets) (h : targets.Perm targets') :
    AllFeasible t targets' where
  each c hc := (hf.each c (h.mem_iff.2 hc)).congr fun _ => h.mem_iff
  supplied := hf.supplied.perm h fun _ => ((h.symm.flatMap_right _).append_right _).mem_iff.1

/-- What is made of a tree depends on the changes only, not on their order. -/
theorem Made.unique (hl : t.LinkFree) (hplanned : Target.Planned t targets)
    (h : ∀ c, c ∈ targets ↔ c ∈ targets') (hm : Made t targets t₁) (hm' : Made t targets' t₂)
    (p : Path) : t₁.get? p = t₂.get? p := by
  by_cases habove : Target.Above targets p
  · rw [hm.opened p habove, hm'.opened p ((Target.above_congr h).1 habove)]
  · have habove' : ¬Target.Above targets' p := fun ha => habove ((Target.above_congr h).2 ha)
    by_cases hdest : ∃ c ∈ targets, c.dest = p
    · obtain ⟨c, hc, rfl⟩ := hdest
      by_cases hw : c.Writes
      · rw [hm.written c hc hw, hm'.written c ((h c).1 hc) hw]
      · have hfits : Fits c.dest := by
          obtain ⟨ha, -⟩ | ⟨-, b, hfind⟩ := (hplanned.sound c hc).cases
          · exact absurd (by simp [Target.Writes, ha]) hw
          · exact ((find_eq_ok hl (hplanned.plain c hc)).1 hfind).1
        rw [hm.removed c hc hw hfits habove, hm'.removed c ((h c).1 hc) hw hfits habove']
    · have hnone : ∀ c ∈ targets, c.dest ≠ p := fun c hc he => hdest ⟨c, hc, he⟩
      rw [hm.others p habove hnone, hm'.others p habove' fun c hc => hnone c ((h c).2 hc)]

end

namespace Draft

variable {t : FileTree} {base : RealPath} {respectRules : Bool} {rules rules' : Option Rules}
  {ops ops' : List Operation} {es es' : List Effect} {d d' : Draft} {patch : Text}

theorem Ruled.unique (h : Ruled t base respectRules rules) (h' : Ruled t base respectRules rules') :
    rules' = rules := by
  cases respectRules with
  | true =>
    obtain ⟨r, hr, rfl⟩ := h
    obtain ⟨r', hr', rfl⟩ := h'
    rw [hr] at hr'
    rw [Except.ok.inj hr']
  | false => exact Eq.trans h' (Eq.symm h)

theorem Comprises.lookup_eq_some (h : Comprises base rules es d) {path : Text} {n : Nat} :
    d.fuzz.lookup path = some n ↔ (path, n) ∈ es.flatMap Effect.fuzz := by
  rw [← h.fuzz]
  exact ⟨Ledger.mem_of_lookup, fun hx => h.single _ hx⟩

/-- A patch with the same operations in another order is worked out to the same effects. -/
theorem ofPatch_perm (hruled : Ruled t base respectRules rules) (hperm : ops.Perm ops')
    (hread : Envelope.read patch = .ok ops')
    (hall : List.Forall₂ (Operation.Works t base rules) ops es) (hd : Comprises base rules es d) :
    ∃ d' es', ofPatch t base respectRules patch {} = .ok () d' ∧ es.Perm es' ∧
      List.Forall₂ (Operation.Works t base rules) ops' es' ∧ Comprises base rules es' d' := by
  obtain ⟨es', hall', hes⟩ := List.perm_comp_forall₂ hperm.symm hall
  have hends := ofPatch_works t base respectRules patch
  cases hdraft : ofPatch t base respectRules patch {} with
  | error e d' =>
    have hapart := (hes.flatMap_right Effect.places).nodup_iff.2 hd.apart
    exact absurd hapart (hends.of_error hdraft rules ops' es' hruled hread hall')
  | ok u d' =>
    obtain ⟨rules', ops'', es'', hruled', hread', hall'', hd'⟩ := hends.of_ok hdraft
    obtain rfl := hruled.unique hruled'
    rw [hread] at hread'
    obtain rfl := Except.ok.inj hread'
    have hright : Relator.RightUnique (Operation.Works t base rules') :=
      fun _ _ _ => Operation.Works.unique
    obtain rfl := List.right_unique_forall₂' hright hall' hall''
    exact ⟨d', es', rfl, hes.symm, hall', hd'⟩

end Draft

namespace WorkedOut

variable {t : FileTree} {base : RealPath} {rules : Option Rules} {ops ops' : List Operation}
  {es es' : List Effect} {d d' : Draft} {targets : List Target}

theorem perm (h : WorkedOut t base rules ops es d targets) (hes : es.Perm es')
    (hall : List.Forall₂ (Operation.Works t base rules) ops' es')
    (hd : Draft.Comprises base rules es' d') :
    ∃ targets', WorkedOut t base rules ops' es' d' targets' ∧ targets.Perm targets' := by
  have hchanges : d'.changes.Perm d.changes := by
    rw [hd.changes, h.draft.changes]
    exact (hes.flatMap_right Effect.changes).symm
  have hmap := hchanges.map (Change.resolve t base)
  rw [h.resolved] at hmap
  obtain ⟨targets', hres, htargets⟩ := (congrFun₂ (List.eq_map_comp_perm Except.ok) _ _).mpr hmap
  exact ⟨targets', ⟨hall, hd, hres⟩, htargets.symm⟩

end WorkedOut

namespace Applied

variable {t : FileTree} {s s' : Summary} {patch patch' : Text} {respectRules : Bool}
  {options : Options} {ops ops' : List Operation} (hatomic : options.atomic = true)
  (hdry : options.dryRun = false) (hbackup : options.backupExt = none) (hl : t.LinkFree)
  (hroot : t.Rooted) (hread : Envelope.read patch = .ok ops)
  (hread' : Envelope.read patch' = .ok ops') (hperm : ops.Perm ops')

section Within

variable {base : Path} (hb : Path.Plain base)
include hatomic hdry hbackup hl hroot hread hread' hperm hb

theorem ofPatchAt_perm (hs : (ofPatchAt t ⟨base, false⟩ patch options respectRules).outcome = .ok s)
    (hf : s.failed = []) :
    (∃ s', (ofPatchAt t ⟨base, false⟩ patch' options respectRules).outcome = .ok s' ∧
      s'.failed = [] ∧ (∀ path, s.fuzz.lookup path = s'.fuzz.lookup path) ∧
      ∀ p, (ofPatchAt t ⟨base, false⟩ patch options respectRules).tree.get? p =
        (ofPatchAt t ⟨base, false⟩ patch' options respectRules).tree.get? p) ∨
      (ofPatchAt t ⟨base, false⟩ patch' options respectRules).outcome = .error (.aborted .tooDeep) := by
  obtain ⟨policy, rules, ops₁, es, d, targets, hpolicy, hr, hruled, hread₁, hw, hm, hfeasible, -, hfuzz⟩ :=
    ofPatchAt_makes hl hroot hdry hbackup hb hs hf
  rw [hread] at hread₁
  obtain rfl := Except.ok.inj hread₁
  obtain ⟨d', es', hdraft', hes, hall', hd'⟩ := Draft.ofPatch_perm hruled hperm hread' hw.works hw.draft
  obtain ⟨targets', hw', htargets⟩ := hw.perm hes hall' hd'
  have hplanned' := hw'.planned hl hb
  obtain ⟨made, hmade, hfailed⟩ | ⟨hdeep, -⟩ := Commit.run_completes hatomic hdry hbackup hr
      hw'.resolved policy hl hroot hplanned'.apart ((hfeasible hatomic).perm htargets)
  · obtain ⟨targets'', hres, -, hm', -⟩ := Commit.run_makes hdry hbackup hl hroot hr
      (fun _ hres => ((hd'.planned hall').targets hl hb hres).apart) hmade hfailed
    obtain rfl : targets' = targets'' :=
      (List.map_inj_right fun _ _ => Except.ok.inj).1 (hw'.resolved.symm.trans hres)
    refine .inl ⟨{ made with fuzz := d'.fuzz }, ?_, hfailed, fun path => ?_, fun p => ?_⟩
    · rw [ofPatchAt_outcome hdraft' hpolicy, hmade]
    · ext n
      rw [hfuzz, hw.draft.lookup_eq_some, hd'.lookup_eq_some, (hes.flatMap_right Effect.fuzz).mem_iff]
    · rw [ofPatchAt_tree hdraft' hpolicy]
      exact Made.unique hl (hw.planned hl hb) (fun _ => htargets.mem_iff) hm hm' p
  · exact .inr (by rw [ofPatchAt_outcome hdraft' hpolicy, hdeep])

end Within

/-- The two patches come to the same: one is applied without a failure if and only if the other is,
with the same tree and the same fuzz. -/
structure Agrees (a a' : Applied) : Prop where
  succeeds : (∃ s, a.outcome = .ok s ∧ s.failed = []) ↔ ∃ s, a'.outcome = .ok s ∧ s.failed = []
  comes_to : ∀ s s', a.outcome = .ok s → s.failed = [] → a'.outcome = .ok s' → s'.failed = [] →
    (∀ p, a.tree.get? p = a'.tree.get? p) ∧ ∀ path, s.fuzz.lookup path = s'.fuzz.lookup path

include hatomic hdry hbackup hl hroot hread hread' hperm

/-- The order of the operations in a patch does not matter to what it comes to, unless directories are
made too deep. -/
theorem ofPatch_agrees (names : List Name)
    (hdeep : (ofPatch t names patch options respectRules).outcome ≠ .error (.aborted .tooDeep))
    (hdeep' : (ofPatch t names patch' options respectRules).outcome ≠ .error (.aborted .tooDeep)) :
    (ofPatch t names patch options respectRules).Agrees
      (ofPatch t names patch' options respectRules) := by
  unfold ofPatch at hdeep hdeep' ⊢
  cases hr : t.realPath names with
  | error a => exact ⟨Iff.rfl, fun _ _ hs => nomatch hs⟩
  | ok base =>
    obtain rfl := realPath_eq_ok hl hr
    have hb := Path.plain_nil.walk names
    simp only [hr] at hdeep hdeep' ⊢
    have hsame {s : Summary} (hs : (ofPatchAt t ⟨Path.walk [] names, false⟩ patch options
        respectRules).outcome = .ok s) (hf : s.failed = []) :=
      (ofPatchAt_perm hatomic hdry hbackup hl hroot hread hread' hperm hb hs hf).resolve_right hdeep'
    constructor
    case succeeds =>
      constructor
      · rintro ⟨s, hs, hf⟩
        obtain ⟨s', hs', hf', -⟩ := hsame hs hf
        exact ⟨s', hs', hf'⟩
      · rintro ⟨s, hs, hf⟩
        obtain ⟨s', hs', hf', -⟩ := (ofPatchAt_perm hatomic hdry hbackup hl hroot hread' hread hperm.symm
          hb hs hf).resolve_right hdeep
        exact ⟨s', hs', hf'⟩
    case comes_to =>
      intro s s' hs hf hs' hf'
      obtain ⟨s'', hs'', -, hfuzz, htree⟩ := hsame hs hf
      rw [hs'] at hs''
      obtain rfl := Except.ok.inj hs''
      exact ⟨htree, hfuzz⟩

omit hatomic hdry hbackup hl hroot hread hread' hperm

theorem ofPatch_agrees_reversed :
    let t := (FileTree.empty.put ["a".toList] (.file "x\n".toUTF8)).put ["b".toList]
      (.file "u\nv".toUTF8)
    let add := List.map String.toList ["*** Add File: d/n", "+new", "+lines"]
    let update := List.map String.toList ["*** Update File: a", "@@", "-x", "+y"]
    let move := List.map String.toList ["*** Update File: b", "*** Move to: d/b", "@@", " u", "-v", "+w"]
    let first := "*** Begin Patch".toList
    let last := "*** End Patch".toList
    let patch := Text.ofLines (first :: (add ++ update ++ move) ++ [last])
    let patch' := Text.ofLines (first :: (move ++ update ++ add) ++ [last])
    let options : Options := { policy := some .failFast, atomic := true }
    (∃ s, (ofPatch t [] patch options false).outcome = .ok s ∧ s.failed = []) ∧
      (ofPatch t [] patch options false).Agrees (ofPatch t [] patch' options false) := by
  intro t add update move first last patch patch' options
  have hlinks : t.LinkFree := (linkFree_empty.put (by simp) (by simp)).put (by simp) (by simp)
  have hroot : t.Rooted := by
    have ha := rooted_empty.put (p := []) (n := "a".toList) (e := .file "x\n".toUTF8) rfl (by decide)
    exact ha.put (p := []) rfl (by decide)
  have hread : Envelope.read patch = .ok [.add "d/n".toList (List.map String.toList ["+new", "+lines"]),
      .update "a".toList (List.map String.toList ["@@", "-x", "+y"]) none,
      .update "b".toList (List.map String.toList ["@@", " u", "-v", "+w"]) (some "d/b".toList)] := by
    decide +kernel
  have hread' : Envelope.read patch' = .ok [
      .update "b".toList (List.map String.toList ["@@", " u", "-v", "+w"]) (some "d/b".toList),
      .update "a".toList (List.map String.toList ["@@", "-x", "+y"]) none,
      .add "d/n".toList (List.map String.toList ["+new", "+lines"])] := by
    decide +kernel
  have hfailed : (ofPatch t [] patch options false).outcome.map Summary.failed = .ok [] := by
    decide +kernel
  have hfailed' : (ofPatch t [] patch' options false).outcome.map Summary.failed = .ok [] := by
    decide +kernel
  obtain ⟨s, hs, hf⟩ := Except.map_eq_ok.1 hfailed
  obtain ⟨s', hs', -⟩ := Except.map_eq_ok.1 hfailed'
  exact ⟨⟨s, hs, hf⟩, ofPatch_agrees rfl rfl rfl hlinks hroot hread hread' (List.reverse_perm _).symm
    [] (by simp [hs]) (by simp [hs'])⟩

end Applied

section NewFiles

/-- The path of a file that can be made in an empty tree. -/
structure Path.Free (p : Path) : Prop where
  plain : Path.Plain p
  slash : ∀ n ∈ p, '/' ∉ n
  hasNull : Path.hasNull p = false
  fits : FileTree.Fits p
  short : FileTree.tooLong (p.parent ++ [FileTree.tempName .staged 0]) = false

def Path.text (p : Path) : Text := ['/'].intercalate p

def Operation.newFile (p : Path) : Operation := .add p.text [['+']]

def Target.newFile (p : Path) : Target := ⟨⟨.create, p.text, some [], none⟩, p⟩

def Effect.newFile (p : Path) : Effect := ⟨[p], [(Target.newFile p).change], []⟩

variable {p : Path} {ps : List Path}

theorem FileTree.has_empty (hp : Path.Plain p) (hne : p ≠ []) : empty.has p = false := by
  apply Bool.eq_false_iff.2
  intro hhas
  obtain ⟨-, -, hsome⟩ := (has_iff linkFree_empty hp).1 hhas
  rw [get?_of_ne_nil hne, lookup_empty] at hsome
  cases hsome

namespace Path.Free

variable (h : p.Free) (hne : p ≠ [])
include h hne

theorem resolve? : (⟨[], false⟩ : RealPath).resolve? p.text = some p := by
  have hpieces : Path.pieces p.text = p := List.splitOn_intercalate _ h.slash hne
  refine Path.resolve?_eq_some.2 ⟨List.nil_prefix, ?_⟩
  rw [hpieces, h.plain.walk_eq, List.nil_append]

theorem works : (Operation.newFile p).Works .empty ⟨[], false⟩ none (Effect.newFile p) := by
  have hbody : (Patched.create (Text.ofLines [['+']])).outcome = .ok ([], 0) := by decide +kernel
  refine .add ?_ (has_empty h.plain hne) hbody
  rw [Draft.guarded, h.resolve? hne]
  rfl

theorem resolve : (Target.newFile p).change.resolve .empty ⟨[], false⟩ = .ok (Target.newFile p) := by
  rw [Change.resolve, Target.newFile, h.resolve? hne]

theorem feasible {targets : List Target} (habove : ¬Target.Above targets p) :
    (Target.newFile p).Feasible .empty targets := by
  have hparent := Path.parent_isPrefix p
  refine .write nofun ⟨Path.hasNull_mono hparent h.hasNull, h.fits.mono hparent, fun q _ => ?_⟩ h.short
    h.hasNull h.fits ?_ habove nofun
  · by_cases hq : q = []
    · exact .inr (hq ▸ rfl)
    · exact .inl (by rw [get?_of_ne_nil hq, lookup_empty])
  · change FileTree.empty.get? p ≠ _
    rw [get?_of_ne_nil hne, lookup_empty]
    exact nofun

end Path.Free

theorem WorkedOut.newFiles (hp : ∀ p ∈ ps, p ≠ [] ∧ p.Free) (hnodup : ps.Nodup) {patch : Text}
    (hread : Envelope.read patch = .ok (ps.map Operation.newFile)) :
    ∃ d, Draft.ofPatch .empty ⟨[], false⟩ false patch {} = .ok () d ∧
      WorkedOut .empty ⟨[], false⟩ none (ps.map Operation.newFile) (ps.map Effect.newFile) d
        (ps.map Target.newFile) := by
  have hall : List.Forall₂ (Operation.Works .empty ⟨[], false⟩ none) (ps.map Operation.newFile)
      (ps.map Effect.newFile) := by
    apply List.forall₂_map_left_iff.2
    apply List.forall₂_map_right_iff.2
    exact List.forall₂_same.2 fun p hmem => (hp p hmem).2.works (hp p hmem).1
  have hplaces : (ps.map Effect.newFile).flatMap Effect.places = ps := by
    simp [Effect.newFile, List.flatMap_map]
  have hends := Draft.ofPatch_works .empty ⟨[], false⟩ false patch
  cases hdraft : Draft.ofPatch .empty ⟨[], false⟩ false patch {} with
  | error e d =>
    have hapart := hends.of_error hdraft none _ _ rfl hread hall
    rw [hplaces] at hapart
    exact absurd hnodup hapart
  | ok u d =>
    obtain ⟨rules, ops, es, hruled, hread', hall', hd⟩ := hends.of_ok hdraft
    obtain rfl : rules = none := hruled
    rw [hread] at hread'
    obtain rfl := Except.ok.inj hread'
    have hright : Relator.RightUnique (Operation.Works .empty ⟨[], false⟩ none) :=
      fun _ _ _ => Operation.Works.unique
    obtain rfl := List.right_unique_forall₂' hright hall hall'
    refine ⟨d, rfl, hall, hd, ?_⟩
    rw [hd.changes]
    have hchanges : (ps.map Effect.newFile).flatMap Effect.changes =
        ps.map fun p => (Target.newFile p).change := by
      rw [List.flatMap_map, List.map_eq_flatMap]
      rfl
    rw [hchanges, List.map_map, List.map_map]
    exact List.map_congr_left fun p hmem => (hp p hmem).2.resolve (hp p hmem).1

theorem Applied.ofPatch_newFiles (hp : ∀ p ∈ ps, p ≠ [] ∧ p.Free) (hnodup : ps.Nodup) {patch : Text}
    (hread : Envelope.read patch = .ok (ps.map Operation.newFile)) (policy : Policy) :
    ∃ fuzz, (ofPatch .empty [] patch { policy := some policy, atomic := true } false).outcome =
      match (Commit.atomic .empty policy none [] (ps.map Target.newFile)).outcome with
      | .error a => .error (.aborted a)
      | .ok s => .ok { s with fuzz := fuzz } := by
  obtain ⟨d, hdraft, hw⟩ := WorkedOut.newFiles hp hnodup hread
  have hr : FileTree.empty.realPath [] = .ok ⟨[], false⟩ := rfl
  let options : Options := { policy := some policy, atomic := true }
  have hrun : (Commit.run .empty [] d.changes policy options).outcome = _ :=
    Commit.run_outcome rfl rfl rfl hr hw.resolved
  refine ⟨d.fuzz, ?_⟩
  rw [← hrun, ofPatch, hr]
  exact ofPatchAt_outcome hdraft rfl

section Order

variable {q : Path} (hp : p ≠ [] ∧ p.Free) (hq : q ≠ [] ∧ q.Free) (hpq : p ≠ q)
include hp hq hpq

omit hpq in
/-- The directories of the first new file are above those of the second, which are few enough below them. -/
theorem not_deep_newFiles (hne : p.parent ≠ []) (hparent : p.parent <+: q.parent)
    (hshort : p.parent.length ≤ maxDepth) (hfew : q.parent.length ≤ p.parent.length + maxDepth)
    (hdeep : maxDepth < q.parent.length) :
    ¬Workspace.Deep .empty [Target.newFile p, Target.newFile q] := by
  apply Workspace.not_deep (by simpa [Target.newFile] using ⟨hp.2.plain, hq.2.plain⟩)
  intro done c rest heq
  cases done with
  | nil =>
    obtain ⟨rfl, -⟩ := List.cons.inj heq
    have hlen : (Target.newFile p).dest.parent.length ≤ ([] : Path).length + maxDepth :=
      Nat.le_trans hshort (Nat.le_add_left _ _)
    exact ⟨[], List.nil_prefix, hne.symm, fits_nil, .inl rfl, hlen⟩
  | cons c' done =>
    obtain ⟨hc', heq⟩ := List.cons.inj heq
    cases done with
    | nil =>
      obtain ⟨rfl, -⟩ := List.cons.inj heq
      have hlt : p.parent ≠ q.parent := fun he => Nat.not_le.2 hdeep (he ▸ hshort)
      have hfirst : Target.Above [c'] p.parent :=
        hc' ▸ ⟨_, List.mem_cons_self, by simp [Target.Writes, Target.newFile, Target.action], List.prefix_refl _⟩
      exact ⟨p.parent, hparent, hlt, hp.2.fits.mono (Path.parent_isPrefix p), .inr hfirst, hfew⟩
    | cons c'' done => simp at heq

theorem Commit.newFiles_completes (hne : p.parent ≠ []) (hparent : p.parent <+: q.parent)
    (hapart : ¬p <+: q.parent) (hshort : p.parent.length ≤ maxDepth)
    (hfew : q.parent.length ≤ p.parent.length + maxDepth) (hdeep : maxDepth < q.parent.length)
    (hfits : p.length + q.length + 2 ≤ tempNames) (policy : Policy) :
    ∃ s, (atomic .empty policy none [] [Target.newFile p, Target.newFile q]).outcome = .ok s ∧
      s.failed = [] := by
  have hnot {r : Path} (hr : r ≠ []) (h : ¬r <+: q.parent) :
      ¬Target.Above [Target.newFile p, Target.newFile q] r := by
    simpa [Target.Above, Target.newFile, Target.Writes, Target.action] using
      ⟨fun hp => h (hp.trans hparent), h⟩
  have hplain : ∀ c ∈ [Target.newFile p, Target.newFile q], Path.Plain c.dest := by
    simpa [Target.newFile] using ⟨hp.2.plain, hq.2.plain⟩
  have hfeasible : ∀ c ∈ [Target.newFile p, Target.newFile q],
      c.Feasible .empty [Target.newFile p, Target.newFile q] := by
    intro c hc
    simp only [List.mem_cons, List.not_mem_nil, or_false] at hc
    obtain rfl | rfl := hc
    · exact hp.2.feasible hp.1 (hnot hp.1 hapart)
    · exact hq.2.feasible hq.1 (hnot hq.1 (Path.not_isPrefix_parent hq.1))
  have hsupplied : Target.Supplied .empty
      (Workspace.start .empty none [Target.newFile p, Target.newFile q]).reserved
      [Target.newFile p, Target.newFile q] := by
    refine Target.supplied_of_names fun dir => ?_
    have hlinks : FileTree.empty.linkNames = [] := rfl
    simpa [Workspace.start, Target.newFile, hlinks] using hfits
  have hdistinct : [Target.newFile p, Target.newFile q].Pairwise fun c c' => c.dest ≠ c'.dest := by
    simpa [Target.newFile] using hpq
  have hcompletes :=
    atomic_completes linkFree_empty rooted_empty hplain hdistinct ⟨hfeasible, hsupplied⟩ policy
  exact hcompletes.resolve_right fun h => not_deep_newFiles hp hq hne hparent hshort hfew hdeep h.2

omit hp hpq in
theorem Commit.newFiles_too_deep (hdeep : maxDepth < q.parent.length) (policy : Policy) :
    (atomic .empty policy none [] [Target.newFile q, Target.newFile p]).outcome = .error .tooDeep := by
  refine atomic_of_levels (c := Target.newFile q) nofun ?_
  change maxDepth < FileTree.empty.levels q.parent
  rw [levels_eq fun r hr hne _ => has_empty (hq.2.plain.parent.mono hr) hne]
  exact hdeep

end Order

theorem Path.tooLong_replicate {k : Nat} {n : Name} (h : 2 * k + n.encode.size < maxPathBytes) :
    tooLong (List.replicate k ['a'] ++ [n]) = false := by
  have hsize (k : Nat) :
      (Text.encode (['/'].intercalate (List.replicate k ['a'] ++ [n]))).size = 2 * k + n.encode.size := by
    induction k with
    | zero => simp [List.intercalate]
    | succ k ih =>
      rw [List.replicate_succ, List.cons_append, intercalate_cons _ (by simp), Text.size_encode_append,
        Text.size_encode_cons '/', ih]
      have ha : (Text.encode ['a']).size = 1 := by decide
      have hslash : '/'.utf8Size = 1 := by decide
      omega
  have hslash : '/'.utf8Size = 1 := by decide
  simp only [tooLong, toText, Text.size_encode_cons, hsize, decide_eq_false_iff_not]
  omega

theorem Path.free_replicate {k : Nat} {c : Char} (hc : c = 'x' ∨ c = 'y') (hk : k ≤ 2000) :
    Path.Free (List.replicate k ['a'] ++ [[c]]) := by
  have hall {P : Name → Prop} (ha : P ['a']) (hx : P ['x']) (hy : P ['y']) :
      ∀ n ∈ List.replicate k ['a'] ++ [[c]], P n := by
    intro n hn
    obtain hn | hn := List.mem_append.1 hn
    · exact (List.mem_replicate.1 hn).2 ▸ ha
    · obtain rfl := List.mem_singleton.1 hn
      obtain rfl | rfl := hc
      · exact hx
      · exact hy
  have hlong {n : Name} (hn : n.encode.size < 50) : tooLong (List.replicate k ['a'] ++ [n]) = false := by
    apply tooLong_replicate
    have : maxPathBytes = 4095 := rfl
    omega
  constructor
  case plain => exact hall (by decide) (by decide) (by decide)
  case slash => exact hall (by decide) (by decide) (by decide)
  case hasNull =>
    apply List.any_eq_false.2
    exact hall (by decide) (by decide) (by decide)
  case fits =>
    refine ⟨hlong ?_, hall (by decide) (by decide) (by decide)⟩
    obtain rfl | rfl := hc <;> decide
  case short =>
    rw [parent, List.dropLast_concat]
    apply hlong
    rw [size_tempName .staged (by decide)]
    decide

/-- The order matters to two new files, the one five hundred directories deep and the other as many below
these. -/
theorem Applied.not_ofPatch_agrees_deep :
    let p : Path := List.replicate 500 ['a'] ++ [['x']]
    let q : Path := List.replicate 1000 ['a'] ++ [['y']]
    let add (p : Path) : List Line := ["*** Add File: ".toList ++ p.text, ['+']]
    let patch := Text.ofLines ("*** Begin Patch".toList :: (add p ++ add q) ++ ["*** End Patch".toList])
    let patch' := Text.ofLines ("*** Begin Patch".toList :: (add q ++ add p) ++ ["*** End Patch".toList])
    let options : Options := { policy := some .failFast, atomic := true }
    ∃ ops ops', Envelope.read patch = .ok ops ∧ Envelope.read patch' = .ok ops' ∧ ops.Perm ops' ∧
      ¬(ofPatch .empty [] patch options false).Agrees (ofPatch .empty [] patch' options false) := by
  intro p q add patch patch' options
  have hread : Envelope.read patch = .ok ([p, q].map Operation.newFile) := by decide +kernel
  have hread' : Envelope.read patch' = .ok ([q, p].map Operation.newFile) := by decide +kernel
  have hp : p ≠ [] ∧ p.Free :=
    ⟨List.append_ne_nil_of_right_ne_nil _ nofun, Path.free_replicate (.inl rfl) (by decide)⟩
  have hq : q ≠ [] ∧ q.Free :=
    ⟨List.append_ne_nil_of_right_ne_nil _ nofun, Path.free_replicate (.inr rfl) (by decide)⟩
  have hps : ∀ r ∈ [p, q], r ≠ [] ∧ r.Free :=
    List.forall_mem_cons.2 ⟨hp, List.forall_mem_singleton.2 hq⟩
  have hqs : ∀ r ∈ [q, p], r ≠ [] ∧ r.Free :=
    List.forall_mem_cons.2 ⟨hq, List.forall_mem_singleton.2 hp⟩
  have hpq : p ≠ q := by decide +kernel
  refine ⟨_, _, hread, hread', List.Perm.swap _ _ _, fun h => ?_⟩
  obtain ⟨fuzz, hs⟩ := ofPatch_newFiles hps (by simpa using hpq) hread .failFast
  obtain ⟨s, hcompletes, hf⟩ := Commit.newFiles_completes hp hq hpq (by decide +kernel)
    (by decide +kernel) (by decide +kernel) (by decide +kernel) (by decide +kernel) (by decide +kernel)
    (by decide +kernel) .failFast
  rw [List.map_cons, List.map_cons, List.map_nil, hcompletes] at hs
  obtain ⟨s', hs', -⟩ := h.succeeds.1 ⟨_, hs, hf⟩
  obtain ⟨fuzz', hdeep⟩ := ofPatch_newFiles hqs (by simpa using hpq.symm) hread' .failFast
  rw [List.map_cons, List.map_cons, List.map_nil,
    Commit.newFiles_too_deep hq (by decide +kernel)] at hdeep
  cases hdeep.symm.trans hs'

end NewFiles

end Emend
