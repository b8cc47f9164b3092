import Emend.Proofs.Commit.Backup
import Emend.Proofs.Commit.Completion
import Emend.Proofs.FileTree.NewFile

namespace Emend

open EStateM FileTree

/-- Where the backup of a file is written, if it can be. -/
def Backup.spot? (t : FileTree) (dest : Path) (ext : Text) : Option Path :=
  match t.callSpot .newFile (names dest ext) with
  | .ok s => some s.path
  | .error _ => none

theorem Backup.spot?_eq_some {t : FileTree} {dest p : Path} {ext : Text} :
    spot? t dest ext = some p ↔ ∃ s, t.callSpot .newFile (names dest ext) = .ok s ∧ s.path = p := by
  unfold spot?
  cases t.callSpot .newFile (names dest ext) <;> simp

namespace Target

/-- Nothing stands in the way of the change, nor will anything that the others make. -/
structure Unhindered (t : FileTree) (backup : Option Text) (targets : List Target) (c : Target) : Prop where
  plain : Path.Plain c.dest
  hasNull : Path.hasNull c.dest = false
  fits : Fits c.dest
  free : t.get? c.dest ≠ some .dir
  unmade : ¬Above targets c.dest
  passable : c.Writes → t.Passable c.dest.parent
  found : c.action ≠ .create → ∃ b, t.get? c.dest = some (.file b)
  known : c.action = .modify → ∃ former, c.change.former = some former
  backed : ∀ ext, backup = some ext → ext ≠ [] → c.action = .modify →
    ∃ p, Backup.spot? t c.dest ext = some p ∧ t.get? p ≠ some .dir ∧ ¬Above targets p

def sites (t : FileTree) (backup : Option Text) (targets : List Target) : List Path :=
  targets.map dest ++ backup.toList.flatMap fun ext => targets.filterMap fun c => Backup.spot? t c.dest ext

def BackedUpAt (t : FileTree) (backup : Option Text) (targets : List Target) (c : Target) (p : Path) : Prop :=
  ∃ ext, backup = some ext ∧ c.action = .modify ∧ Backup.spot? t c.dest ext = some p ∧ ¬Above targets p

end Target

section Steps

variable {t t' t'' : FileTree} {backup : Option Text} {targets : List Target} {c : Target} {p q : Path}

theorem Target.dest_mem_sites (hc : c ∈ targets) : c.dest ∈ sites t backup targets :=
  List.mem_append_left _ (List.mem_map_of_mem hc)

theorem Target.BackedUpAt.not_above (h : BackedUpAt t backup targets c p) : ¬Above targets p := by
  obtain ⟨_, -, -, -, hp⟩ := h
  exact hp

theorem Target.BackedUpAt.mem_sites (h : BackedUpAt t backup targets c p) (hc : c ∈ targets) :
    p ∈ sites t backup targets := by
  obtain ⟨ext, rfl, -, hp, -⟩ := h
  apply List.mem_append_right
  exact List.mem_flatMap.2 ⟨ext, Option.mem_toList.2 rfl, List.mem_filterMap.2 ⟨c, hc, hp⟩⟩

/-- Directories stay, and only those are made that new files need. -/
structure Paved (t : FileTree) (targets : List Target) (t' : FileTree) : Prop where
  linkFree : t'.LinkFree
  rooted : t'.Rooted
  dirs : ∀ p, t.get? p = some .dir → t'.get? p = some .dir
  only : ∀ p, t'.get? p = some .dir → t.get? p = some .dir ∨ Target.Above targets p
  passable : ∀ p, Target.Above targets p → t'.get? p = none ∨ t'.get? p = some .dir

theorem paved_self (hl : t.LinkFree) (hroot : t.Rooted)
    (h : ∀ c ∈ targets, c.Unhindered t backup targets) : Paved t targets t where
  linkFree := hl
  rooted := hroot
  dirs _ hp := hp
  only _ hp := .inl hp
  passable := fun p ⟨c, hc, hw, hp⟩ => (h c hc).passable hw p hp

namespace Paved

variable (h : Paved t targets t')
include h

theorem ne_dir (hfree : t.get? p ≠ some .dir) (hp : ¬Target.Above targets p) : t'.get? p ≠ some .dir :=
  fun hd => (h.only p hd).elim hfree hp

theorem grows (hg : t'.GrowsTo p t'') (hroot : t''.Rooted) (hp : Target.Above targets p) :
    Paved t targets t'' where
  linkFree := hg.linkFree h.linkFree
  rooted := hroot
  dirs q hq := hg.get?_eq_some (h.dirs q hq)
  only q hq := by
    obtain he | ⟨hqp, -⟩ := hg q
    · exact h.only q (he ▸ hq)
    · obtain ⟨c, hc, hw, hp⟩ := hp
      exact .inr ⟨c, hc, hw, hqp.trans hp⟩
  passable q hq := by
    obtain he | ⟨-, -, hd⟩ := hg q
    · exact he ▸ h.passable q hq
    · exact .inr hd

theorem overwrites {P : Path → Prop} (ho : t'.Overwrites P t'') (hP : ∀ p, P p → ¬Target.Above targets p) :
    Paved t targets t'' where
  linkFree := ho.linkFree h.linkFree
  rooted := ho.rooted h.rooted
  dirs q hq := ho.get?_dir.2 (h.dirs q hq)
  only q hq := h.only q (ho.get?_dir.1 hq)
  passable q hq := by
    rw [ho.get?_of_not fun hp => hP q hp hq]
    exact h.passable q hq

theorem erase (hfree : t'.get? p ≠ some .dir) : Paved t targets (t'.erase p) := by
  have herase := get?_erase t' (ne_nil_of_get? rfl hfree)
  constructor
  case linkFree => exact h.linkFree.erase (ne_nil_of_get? rfl hfree)
  case rooted => exact h.rooted.erase hfree
  case dirs => exact fun q hq => get?_dir_erase hfree q (h.dirs q hq)
  case only =>
    intro q hq
    rw [herase] at hq
    split at hq
    · cases hq
    · exact h.only q hq
  case passable =>
    intro q hq
    rw [herase]
    split
    · exact .inl rfl
    · exact h.passable q hq

theorem backup_ends (hl : t.LinkFree) (hc : c.Unhindered t backup targets) :
    (Backup.write backup c).Ends t' (fun _ t'' => t'.Overwrites (c.BackedUpAt t backup targets) t'')
      (fun _ _ => False) := by
  unfold EStateM.Ends Backup.write
  cases backup with
  | none => exact .none
  | some ext =>
    dsimp only
    by_cases hskip : ext = [] ∨ c.action ≠ .modify ∨ !t'.has c.dest
    · rw [if_pos hskip]
      exact .none
    · rw [if_neg hskip]
      simp only [not_or, Decidable.not_not] at hskip
      obtain ⟨hext, hmodify, -⟩ := hskip
      obtain ⟨former, hformer⟩ := hc.known hmodify
      obtain ⟨p, hp, hfree, hunmade⟩ := hc.backed ext rfl hext hmodify
      obtain ⟨s, hs, rfl⟩ := Backup.spot?_eq_some.1 hp
      obtain ⟨hholds, -, hstays⟩ := callSpot_newFile hl hs
      have hfree' := h.ne_dir hfree hunmade
      simp only [hformer, writeFile, hstays t' h.linkFree h.dirs, if_neg hfree']
      exact .file ⟨ext, rfl, hmodify, hp, hunmade⟩ (hholds.mono h.dirs) hfree'

end Paved

section Unhindered

variable (hc : c.Unhindered t backup targets)
include hc

theorem Paved.openable (h : Paved t targets t') (hmem : c ∈ targets) (hw : c.Writes) :
    t'.Openable c.dest.parent :=
  have hparent := Path.parent_isPrefix c.dest
  ⟨Path.hasNull_mono hparent hc.hasNull, hc.fits.mono hparent, fun q hq => h.passable q ⟨c, hmem, hw, hq⟩⟩

theorem Paved.deletable (h : Paved t targets t') (hhas : t'.has c.dest = true) :
    t'.Reaches c.dest ∧ ∃ b, t'.get? c.dest = some (.file b) := by
  obtain ⟨hfits, hholds, hsome⟩ := (has_iff h.linkFree hc.plain).1 hhas
  refine ⟨⟨hc.hasNull, hfits, hholds⟩, ?_⟩
  cases he : t'.get? c.dest with
  | none => simp [he] at hsome
  | some e =>
    cases e with
    | file b => exact ⟨b, rfl⟩
    | dir => exact absurd he (h.ne_dir hc.free hc.unmade)
    | link target => exact absurd he (h.linkFree _ target)

end Unhindered

end Steps

namespace Direct

variable {t t' : FileTree} {backup : Option Text} {targets : List Target} {c : Target}

theorem apply_goes (hl : t.LinkFree) (h : Paved t targets t') (hmem : c ∈ targets)
    (hc : c.Unhindered t backup targets) :
    (apply backup c).Ends t' (fun _ t'' => Paved t targets t'') (fun e _ => e = .aborted .tooDeep) := by
  simp only [apply, ends_bind, ends_get]
  split
  · split
    · next hhas =>
      apply (removeFile_ends h.linkFree hc.plain).mono
      · rintro _ _ ⟨rfl, -, b, hb⟩
        exact h.erase (ne_dir_of_get? hb)
      · exact fun _ _ hnot => absurd (h.deletable hc hhas) hnot.2
    · exact h
  · next hw =>
    have habove : Target.Above targets c.dest.parent := ⟨c, hmem, hw, List.prefix_refl _⟩
    simp only [ends_bind]
    apply (makeDirs_opens h.linkFree hc.plain.parent).mono
    · intro _ t₁ ho
      have h₁ := h.grows ho.grows (ho.rooted h.rooted) habove
      apply (h₁.backup_ends hl hc).mono
      · intro _ t₂ hover
        have h₂ := h₁.overwrites hover fun p hp => hp.not_above
        have hfree := h₂.ne_dir hc.free hc.unmade
        have hholds : t₂.Holds c.dest := fun q hq hne =>
          hover.get?_dir.2 (ho.dirs q ((Path.eq_or_prefix_parent hq).resolve_left hne))
        apply (writeFile_ends h₂.linkFree hc.plain _).mono
        · rintro _ _ ⟨rfl, -, -⟩
          exact h₂.overwrites (P := (· = c.dest)) (.file rfl hholds hfree) fun p hp => hp ▸ hc.unmade
        · exact fun _ _ hnot => absurd ⟨⟨hc.hasNull, hc.fits, hholds⟩, hfree⟩ hnot.2
      · exact fun _ _ hfalse => hfalse.elim
    · rintro _ _ ⟨-, -, ⟨hdeep, -⟩ | hnot⟩
      · exact hdeep
      · exact absurd (h.openable hc hmem hw) hnot

end Direct

theorem FileTree.tooLong_tempName (kind kind' : TempKind) (p : Path) :
    tooLong (p ++ [tempName kind 0]) = tooLong (p ++ [tempName kind' 0]) :=
  tooLong_concat_congr (by rw [size_tempName kind (by decide), size_tempName kind' (by decide)])

namespace Target

variable {t : FileTree} {backup : Option Text} {targets : List Target} {c : Target}

theorem Unhindered.feasible (hc : c.Unhindered t backup targets) (hl : t.LinkFree) (hroot : t.Rooted)
    (hshort : tooLong (c.dest.parent ++ [tempName .staged 0]) = false) : c.Feasible t targets := by
  have hparent := Path.parent_isPrefix c.dest
  by_cases hw : c.Writes
  · refine .write hw ⟨Path.hasNull_mono hparent hc.hasNull, hc.fits.mono hparent, hc.passable hw⟩ hshort
      hc.hasNull hc.fits hc.free hc.unmade fun ha => ?_
    obtain ⟨b, hb⟩ := hc.found (by simp [ha])
    exact hroot.has hl hc.plain hc.fits (by simp [hb])
  · have ha : c.action = .delete := by simpa [Writes] using hw
    obtain ⟨b, hb⟩ := hc.found (by simp [ha])
    exact .delete ha hc.hasNull hc.fits hb fun _ => (tooLong_tempName _ _ _).trans hshort

theorem sites_reserved (hl : t.LinkFree) :
    ∀ d ∈ sites t backup targets, ∀ n ∈ d, n ∈ (Workspace.start t backup targets).reserved := by
  intro d hd n hn
  obtain hd | hd := List.mem_append.1 hd
  · exact Workspace.start_reserves t backup targets d hd n hn
  · obtain ⟨ext, hext, hd⟩ := List.mem_flatMap.1 hd
    obtain ⟨c, hc, hspot⟩ := List.mem_filterMap.1 hd
    obtain ⟨s, hs, rfl⟩ := Backup.spot?_eq_some.1 hspot
    apply List.mem_append_left
    refine List.mem_flatMap.2 ⟨c, hc, List.mem_append_right _ (List.mem_flatMap.2 ⟨ext, hext, ?_⟩)⟩
    exact (callSpot_newFile hl hs).2.1 n hn

end Target

namespace FileTree

theorem Moved.get?_dir_iff {t t' : FileTree} {p q r : Path} {b : ByteArray} (h : t.Moved p q b t') :
    t'.get? r = some .dir ↔ t.get? r = some .dir := by
  refine ⟨fun hd => ?_, h.get?_dir⟩
  by_cases hq : r = q
  · subst hq
    cases h.get?_target.symm.trans hd
  by_cases hp : r = p
  · subst hp
    cases (h.get?_source hq).symm.trans hd
  · rw [← h.get?_of_ne hp hq, hd]

end FileTree

namespace Workspace

variable {t : FileTree} {backup : Option Text} {dests : List Path} {targets done rest : List Target}
  {c : Target} {v w : Workspace}

theorem Promotes.get?_dir_iff (hprom : Promotes w c v) {p : Path} :
    v.tree.get? p = some .dir ↔ w.tree.get? p = some .dir := by
  refine ⟨fun hd => ?_, hprom.get?_dir⟩
  cases hprom with
  | write _ _ _ ht => exact ht.get?_dir_iff.1 hd
  | remove _ _ _ hb =>
    rw [get?_erase _ (ne_nil_of_get? hb nofun)] at hd
    split at hd
    · cases hd
    · exact hd
  | @setAside temp _ _ _ _ _ hdraw ht =>
    have hd := ht.get?_dir_iff.1 hd
    by_cases hp : p = temp
    · subst hp
      cases hdraw.get?_put_self.symm.trans hd
    · rwa [hdraw.get?_put_of_ne hp] at hd
  | idle => exact hd

/-- The directories are made, the changes in `done` have been promoted, and those in `rest` find what
they need. -/
structure Ready (t : FileTree) (dests : List Path) (targets done rest : List Target) (w : Workspace) :
    Prop extends Steady t dests w, Stocked rest w where
  eq : targets = done ++ rest
  dirs : ∀ p, t.get? p = some .dir → w.tree.get? p = some .dir
  only : ∀ p, w.tree.get? p = some .dir → t.get? p = some .dir ∨ Target.Above targets p
  opened : ∀ p, Target.Above targets p → w.tree.get? p = some .dir
  files : ∀ c ∈ rest, c.action ≠ .create → (w.tree.get? c.dest).isSome
  reach : ∀ x ∈ w.staged, w.tree.Reaches x.2
  drew : Drew t .setAside done w

theorem Prepared.ready (h : Prepared t dests targets w)
    (hc : ∀ c ∈ targets, c.Unhindered t backup targets) : Ready t dests targets [] targets w where
  toSteady := h.steady
  toStocked := h.toStocked
  eq := rfl
  dirs p hp := (h.keptAt p).get?_eq_some hp
  only p hp := by
    obtain he | ⟨-, ⟨habove, -⟩ | ⟨-, b, hb⟩⟩ := h.added p
    · exact .inl (he ▸ hp)
    · exact .inr habove
    · cases hb.symm.trans hp
  opened := h.opened
  files c hmem ha := by
    obtain ⟨b, hb⟩ := (hc c hmem).found ha
    simp [(h.keptAt _).get?_eq_some hb]
  reach := h.reach
  drew := h.kept

namespace Ready

theorem paved (h : Ready t dests targets done rest w) : Paved t targets w.tree where
  linkFree := h.linkFree
  rooted := h.rooted
  dirs := h.dirs
  only := h.only
  passable p hp := .inr (h.opened p hp)

theorem overwrites {P : Path → Prop} {t' : FileTree} (h : Ready t dests targets done rest w)
    (ho : w.tree.Overwrites P t') (hP : ∀ p, P p → p ∈ dests) :
    Ready t dests targets done rest { w with tree := t' } where
  toSteady := h.toSteady.overwrites ho hP
  toStocked := h.toStocked.overwrites h.toSteady ho hP
  eq := h.eq
  dirs p hp := ho.get?_dir.2 (h.dirs p hp)
  only p hp := h.only p (ho.get?_dir.1 hp)
  opened p hp := ho.get?_dir.2 (h.opened p hp)
  files c hc ha := ho.isSome_get? (h.files c hc ha)
  reach x hx := (h.reach x hx).mono fun _ hq => ho.get?_dir.2 hq
  drew := h.drew.congr rfl fun _ _ hn =>
    .of_eq (ho.get?_of_not fun hp => hn.not_mem h.reserves (hP _ hp))

theorem exists_fresh (h : Ready t dests targets done (c :: rest) w) (hdests : ∀ c ∈ targets, c.dest ∈ dests)
    (hsupplied : Target.Supplied t w.reserved targets) (hneeds : c.Needs t .setAside) :
    ∃ n, w.tree.Fresh w.reserved c.dest.parent .setAside n := by
  rw [h.eq] at hsupplied
  refine h.drew.exists_fresh hsupplied hneeds fun n hn => ⟨h.kept _ (hn.not_mem h.reserves), fun hdir => ?_⟩
  obtain hdir | habove := h.only _ hdir
  · cases hn.free.symm.trans hdir
  · exact Target.not_above_of_fresh hn (fun c hc => h.reserves _ (hdests c hc)) habove

theorem promotes (h : Ready t dests targets done (c :: rest) w) (hprom : Promotes w c v)
    (hdest : c.dest ∈ dests) (hrest : ∀ c' ∈ rest, c'.dest ∈ dests ∧ c'.dest ≠ c.dest)
    (hp : Path.Plain c.dest) (hhas : c.action = .delete → w.tree.has c.dest = t.has c.dest) :
    Ready t dests targets (done ++ [c]) rest { v with promoted := v.promoted ++ [c] } := by
  have hsteady := hprom.steady h.toSteady hdest
  have hstocked := hprom.stocked h.toSteady hdest h.toStocked
  constructor
  case toSteady => exact { hsteady with }
  case toStocked => exact { hstocked with }
  case eq => rw [h.eq, List.append_assoc, List.singleton_append]
  case dirs => exact fun p hp => hprom.get?_dir (h.dirs p hp)
  case only => exact fun p hp => h.only p (hprom.get?_dir_iff.1 hp)
  case opened => exact fun p hp => hprom.get?_dir (h.opened p hp)
  case files =>
    intro c' hc' ha
    obtain ⟨hmem, hne⟩ := hrest c' hc'
    exact (hprom.get?_of_mem h.toSteady hmem hne) ▸ h.files c' (List.mem_cons_of_mem c hc') ha
  case reach => exact hprom.reach h.reach
  case drew => exact (hprom.drew h.toSteady hdest h.drew hp hhas).congr rfl fun _ _ _ => .of_eq rfl

end Ready

namespace Ready

variable (h : Ready t (Target.sites t backup targets) targets done (c :: rest) w) (hl : t.LinkFree)
  (hroot : t.Rooted) (hc : c.Unhindered t backup targets)
include h hl hroot hc

theorem has_dest (ha : c.action ≠ .create) : w.tree.has c.dest = true ∧ t.has c.dest = true := by
  obtain ⟨b, hb⟩ := hc.found ha
  exact ⟨h.rooted.has h.linkFree hc.plain hc.fits (h.files c List.mem_cons_self ha),
    hroot.has hl hc.plain hc.fits (by simp [hb])⟩

theorem promotes_unhindered (hrest : ∀ c' ∈ rest, c'.dest ≠ c.dest) (hprom : Promotes w c v) :
    Ready t (Target.sites t backup targets) targets (done ++ [c]) rest
      { v with promoted := v.promoted ++ [c] } := by
  refine h.promotes hprom (Target.dest_mem_sites (by simp [h.eq])) (fun c' hc' => ?_) hc.plain fun ha => ?_
  · exact ⟨Target.dest_mem_sites (by simp [h.eq, hc']), hrest c' hc'⟩
  · obtain ⟨hhas, hhas'⟩ := h.has_dest hl hroot hc (by simp [ha])
    rw [hhas, hhas']

theorem promoteDelete_goes (ha : c.action = .delete)
    (hshort : tooLong (c.dest.parent ++ [tempName .staged 0]) = false)
    (hsupplied : Target.Supplied t w.reserved targets) :
    (promoteDelete c).Ends w (fun _ v => Promotes w c v) (fun _ _ => False) := by
  have hdest : c.dest ∈ Target.sites t backup targets := Target.dest_mem_sites (by simp [h.eq])
  obtain ⟨hhas, hhas'⟩ := h.has_dest hl hroot hc (by simp [ha])
  apply (promoteDelete_steps h.linkFree hc.plain (h.reserves _ hdest) ha).mono
  · exact fun _ v hprom => hprom
  · intro _ _ ⟨_, hnot⟩
    obtain ⟨hreach, b, hb⟩ := h.paved.deletable hc hhas
    refine hnot (promotable_delete ha hb hreach (fun _ => (tooLong_tempName _ _ _).trans hshort) ?_)
    exact fun hformer => h.exists_fresh (fun _ => Target.dest_mem_sites) hsupplied ⟨ha, hformer, hhas'⟩

theorem promoteWrite_goes (hw : c.Writes) : (promoteWrite backup c).Ends w
    (fun _ v => ∃ t₁, Ready t (Target.sites t backup targets) targets done (c :: rest) { w with tree := t₁ } ∧
      Promotes { w with tree := t₁ } c v)
    (fun _ _ => False) := by
  have hmem : c ∈ targets := by simp [h.eq]
  have hdest : c.dest ∈ Target.sites t backup targets := Target.dest_mem_sites hmem
  obtain ⟨temp, hs, hb⟩ := h.content c List.mem_cons_self hw
  have htemp := h.staged _ (Ledger.mem_of_lookup hs)
  have hmodify : ¬(c.action = .modify ∧ !w.tree.has c.dest) := fun ⟨hmodify, hn⟩ => by
    simp [(h.has_dest hl hroot hc (by simp [hmodify])).1] at hn
  simp only [ends_bind, promoteWrite, ends_get, if_neg hmodify, hs, ends_set, ends_call]
  apply (h.paved.backup_ends hl hc).mono
  · intro _ t₁ hover
    have h₁ := h.overwrites hover fun p hp => hp.mem_sites hmem
    have hb₁ : t₁.get? temp = some (.file c.bytes) := by
      rw [hover.get?_of_not fun hp => htemp.ne_dest (hp.mem_sites hmem) rfl, hb]
    apply (rename_moves h₁.linkFree htemp.plain hc.plain (htemp.ne_dest hdest)).mono
    · rintro _ t' ⟨b, ht⟩
      exact ⟨t₁, h₁, .write hw (fun hmodify => (h₁.has_dest hl hroot hc (by simp [hmodify])).1) hs ht⟩
    · rintro _ _ ⟨-, hnot⟩
      have hfree := h₁.paved.ne_dir hc.free hc.unmade
      refine hnot ⟨?_, ⟨hc.hasNull, hc.fits, fun q hq hne => ?_⟩, ⟨_, hb₁⟩, hfree⟩
      · exact h₁.reach _ (Ledger.mem_of_lookup hs)
      · exact h₁.opened q ⟨c, hmem, hw, (Path.eq_or_prefix_parent hq).resolve_left hne⟩
  · exact fun _ _ hfalse => hfalse

/-- An unhindered change is promoted, whatever it is to back up. -/
theorem promote_goes (hrest : ∀ c' ∈ rest, c'.dest ≠ c.dest)
    (hshort : tooLong (c.dest.parent ++ [tempName .staged 0]) = false)
    (hsupplied : Target.Supplied t w.reserved targets) :
    (Workspace.promote backup [] c).Ends w
      (fun _ w' => Ready t (Target.sites t backup targets) targets (done ++ [c]) rest w' ∧
        w'.reserved = w.reserved)
      (fun _ _ => False) := by
  unfold Workspace.promote
  simp only [List.contains_nil, Bool.false_eq_true, if_false]
  split
  · next ha =>
    rw [ends_bind]
    apply (h.promoteDelete_goes hl hroot hc ha hshort hsupplied).imp_ok
    exact fun _ v hprom => ⟨h.promotes_unhindered hl hroot hc hrest hprom, hprom.reserved⟩
  · next ha =>
    rw [ends_bind]
    apply (h.promoteWrite_goes hl hroot hc ha).imp_ok
    rintro _ v ⟨t₁, h₁, hprom⟩
    exact ⟨h₁.promotes_unhindered hl hroot hc hrest hprom, hprom.reserved⟩

end Ready

end Workspace

namespace Commit

variable {t : FileTree} {backup : Option Text} {targets : List Target}

theorem direct_goes (hl : t.LinkFree) (hroot : t.Rooted) (hc : ∀ c ∈ targets, c.Unhindered t backup targets)
    (policy : Policy) :
    (∃ s, (direct t policy backup [] targets).outcome = .ok s ∧ s.failed = []) ∨
      (direct t policy backup [] targets).outcome = .error .tooDeep := by
  let inv (rest : List Target) (t' : FileTree) : Prop := rest ⊆ targets ∧ Paved t targets t'
  have hstep : ∀ c rest t', inv (c :: rest) t' →
      (directStep backup [] c).Ends t' (fun _ => inv rest) (fun e _ => e = .call (.aborted .tooDeep)) := by
    rintro c rest t' ⟨hsub, h⟩
    have hmem : c ∈ targets := hsub List.mem_cons_self
    simp only [directStep, ends_adaptExcept, ends_map]
    apply (Direct.apply_goes hl h hmem (hc c hmem)).mono
    · exact fun _ _ h' => ⟨fun d hd => hsub (List.mem_cons_of_mem c hd), h'⟩
    · exact fun _ _ he => congrArg Failure.call he
  obtain ⟨hf, ha, -⟩ | ⟨_, _, rfl, hstopped⟩ :=
    Pass.run_first Target.path (directStep backup) inv policy [] (fun e _ => e = .call (.aborted .tooDeep))
      hstep ⟨List.Subset.refl targets, paved_self hl hroot hc⟩
  · rw [direct_of_clean ⟨hf, ha⟩]
    exact .inl ⟨_, rfl, rfl⟩
  · exact .inr (direct_of_abort (hstopped.abort _ rfl))

/-- Unhindered changes are all promoted, if temporary files can be made beside them and do not run out of
names, unless the batch is given up for the depth of directories. -/
theorem atomic_goes (hl : t.LinkFree) (hroot : t.Rooted)
    (hdistinct : targets.Pairwise fun c c' => c.dest ≠ c'.dest)
    (hc : ∀ c ∈ targets, c.Unhindered t backup targets)
    (hshort : ∀ c ∈ targets, tooLong (c.dest.parent ++ [tempName .staged 0]) = false)
    (hsupplied : Target.Supplied t (Workspace.start t backup targets).reserved targets) (policy : Policy) :
    (∃ s, (atomic t policy backup [] targets).outcome = .ok s ∧ s.failed = []) ∨
      (atomic t policy backup [] targets).outcome = .error .tooDeep := by
  obtain ⟨hf, ha, hprepared, hreserved⟩ | ⟨habort, -⟩ :=
    Workspace.stage_completes hl hroot (fun c hmem => (hc c hmem).plain) hdistinct
      (fun c hmem => (hc c hmem).feasible hl hroot (hshort c hmem)) policy backup
      (fun c hmem => Target.dest_mem_sites hmem) (Target.sites_reserved hl) hsupplied
  · let inv (rest : List Target) (w : Workspace) : Prop := ∃ done,
      Workspace.Ready t (Target.sites t backup targets) targets done rest w ∧
        w.reserved = (Workspace.start t backup targets).reserved
    have hstep : ∀ c rest w, inv (c :: rest) w →
        (Workspace.promote backup [] c).Ends w (fun _ => inv rest) (fun _ _ => False) := by
      rintro c rest w ⟨done, h, hreserved⟩
      have hmem : c ∈ targets := by simp [h.eq]
      have hrest : ∀ c' ∈ rest, c'.dest ≠ c.dest := by
        rw [h.eq] at hdistinct
        exact fun c' hc' => ((List.pairwise_cons.1 (List.pairwise_append.1 hdistinct).2.1).1 c' hc').symm
      have hgoes := h.promote_goes hl hroot (hc c hmem) hrest (hshort c hmem) (hreserved ▸ hsupplied)
      exact hgoes.imp_ok fun _ w' ⟨h', he⟩ => ⟨done ++ [c], h', he.trans hreserved⟩
    obtain ⟨hf', ha', -⟩ | ⟨_, _, hfalse, -⟩ :=
      Pass.run_first Target.path (Workspace.promote backup) inv policy [] (fun _ _ => False) hstep
        ⟨[], hprepared.ready hc, hreserved⟩
    · rw [atomic_of_clean ⟨hf, ha⟩ ⟨hf', ha'⟩]
      exact .inl ⟨_, rfl, rfl⟩
    · exact hfalse.elim
  · exact .inr (atomic_of_abort habort)

end Commit

end Emend
