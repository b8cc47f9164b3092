import Emend.Proofs.Commit.Containment
import Emend.Proofs.FileTree.Litter
import Emend.Proofs.FileTree.Route

namespace Emend

open EStateM FileTree

namespace Target

/-- The change is made on names that no temporary file has. -/
structure Orderly (t : FileTree) (backup : Option Text) (c : Target) : Prop where
  bound : c.Bound t [] backup
  names : ∀ n ∈ c.dest, ¬TempPrefixed n
  kept : ∀ ext, backup = some ext → ext ≠ [] → c.action = .modify →
    ∀ n ∈ Backup.names c.dest ext, ¬TempPrefixed n

/-- What the change deletes is set aside, as its text is not known. -/
def DeletesUnknown (c : Target) : Prop := c.action = .delete ∧ c.change.former = none

/-- Why the temporary file of a change stays: it could not be moved into the place of the change, or
what was there could not be moved to it or backed up, or what was set aside at the place is forgotten
for something else that is set aside there. -/
inductive Strands (backup : Option Text) (targets : List Target) (failures : List (Text × Failure))
    (c : Target) (temp : Path) : Prop
  | promoted {code : Errno} (h : (c.path, .call (.between code temp c.dest)) ∈ failures)
  | setAside {code : Errno} (h : (c.path, .call (.between code c.dest temp)) ∈ failures)
  | backedUp {e : CallError} {t t' : FileTree} (h : Backup.write backup c t = .error e t')
      (hfailed : (c.path, .call e) ∈ failures)
  | forgotten {c' : Target} (h : [c, c'].Sublist targets) (hdest : c'.dest = c.dest) (hc : c.DeletesUnknown)
      (hc' : c'.DeletesUnknown)

theorem Strands.mono {backup : Option Text} {targets targets' : List Target}
    {failures failures' : List (Text × Failure)} {c : Target} {temp : Path}
    (h : c.Strands backup targets failures temp) (ht : targets.Sublist targets')
    (hf : failures ⊆ failures') : c.Strands backup targets' failures' temp := by
  cases h with
  | promoted h => exact .promoted (hf h)
  | setAside h => exact .setAside (hf h)
  | backedUp h hfailed => exact .backedUp h (hf hfailed)
  | forgotten h hdest hc hc' => exact .forgotten (h.trans ht) hdest hc hc'

/-- A temporary file of the change stays at the path, and there is a reason for that. -/
def Leaves (t : FileTree) (backup : Option Text) (targets : List Target)
    (failures : List (Text × Failure)) (c : Target) (p : Path) : Prop :=
  ∃ dir kind n, t.Arrives [] c.dest.parent dir ∧ p = dir ++ [tempName kind n] ∧
    c.Strands backup targets failures (c.dest.parent ++ [tempName kind n])

theorem Leaves.mono {t : FileTree} {backup : Option Text} {targets targets' : List Target}
    {failures failures' : List (Text × Failure)} {c : Target} {p : Path}
    (h : c.Leaves t backup targets failures p) (ht : targets.Sublist targets')
    (hf : failures ⊆ failures') : c.Leaves t backup targets' failures' p := by
  obtain ⟨dir, kind, n, harrives, hp, hs⟩ := h
  exact ⟨dir, kind, n, harrives, hp, hs.mono ht hf⟩

end Target

/-- A batch of changes to a tree, with those that have been tried and what failed of them. Links at
firm paths stay. -/
structure Batch where
  start : FileTree
  firm : Path → Prop
  backup : Option Text
  targets : List Target
  tried : List Target := []
  failures : List (Text × Failure) := []

namespace Batch

variable {k : Batch} {t t' : FileTree} {c : Target} {dest temp p : Path}

def after (k : Batch) (c : Target) (failures : List (Text × Failure)) : Batch :=
  { k with tried := k.tried ++ [c], failures := k.failures ++ failures }

def Firm (k : Batch) : Prop := ∀ c ∈ k.targets, ∀ q, k.start.Follows [] c.dest.parent q → k.firm q

/-- The temporary file that was made for a change at the place is found at the path. -/
structure Held (k : Batch) (t : FileTree) (dest temp p : Path) : Prop where
  target : ∃ c ∈ k.targets, c.dest = dest
  name : ∃ dir kind n, n < tempNames ∧ temp = dest.parent ++ [tempName kind n] ∧
    p = dir ++ [tempName kind n] ∧ t.Opens maxLinks [] dest.parent dir
  hasNull : Path.hasNull temp = false
  short : tooLong temp = false

structure Free (k : Batch) (t : FileTree) (dest : Path) : Prop where
  target : ∃ c ∈ k.targets, c.dest = dest
  place : ∃ names n dir, dest = names ++ [n] ∧ PlainName n ∧ n.encode.size ≤ maxNameBytes ∧
    t.Opens maxLinks [] names dir ∧ t.get? (dir ++ [n]) ≠ some .dir
  hasNull : Path.hasNull dest = false
  short : tooLong dest = false

def Lost (k : Batch) (p : Path) : Prop :=
  ∃ c ∈ k.targets, c.Leaves k.start k.backup k.tried k.failures p

theorem Lost.after (h : k.Lost p) (c : Target) (failures : List (Text × Failure)) :
    (k.after c failures).Lost p := by
  obtain ⟨c', hc', hleaves⟩ := h
  exact ⟨c', hc', hleaves.mono (List.sublist_append_left _ _) (List.subset_append_left _ _)⟩

theorem Held.congr {k' : Batch} (h : k.Held t dest temp p) (ht : k'.targets = k.targets) :
    k'.Held t dest temp p :=
  ⟨ht ▸ h.target, h.name, h.hasNull, h.short⟩

theorem Free.congr {k' : Batch} (h : k.Free t dest) (ht : k'.targets = k.targets) : k'.Free t dest :=
  ⟨ht ▸ h.target, h.place, h.hasNull, h.short⟩

namespace Held

variable (h : k.Held t dest temp p)
include h

theorem spot_entry : t.spot .entry temp = .ok ⟨p, false⟩ := by
  obtain ⟨dir, kind, n, hsize, rfl, rfl, hopens⟩ := h.name
  have hplain := (Path.plain_cons.1 (plain_tempName kind n)).1
  refine (hopens.spot_concat_eq_ok hplain (.inl rfl)).2 ⟨h.short, ?_, rfl⟩
  rw [size_tempName kind hsize]
  decide

theorem has (hp : t.Litter p) : t.has temp = true := by
  obtain ⟨b, hb⟩ := hp.file
  have hspot : t.spot .content temp = .ok ⟨p, false⟩ := by
    obtain ⟨dir, kind, n, hsize, rfl, rfl, hopens⟩ := h.name
    have hplain := (Path.plain_cons.1 (plain_tempName kind n)).1
    refine (hopens.spot_concat_eq_ok hplain (.inr (by simp [NoLink, hb]))).2 ⟨h.short, ?_, rfl⟩
    rw [size_tempName kind hsize]
    decide
  simp [FileTree.has, find, hspot, hb, Except.isOk, Except.toBool]

variable (hc : Confined [] k.firm k.start t)
include hc

theorem keeps (hfirm : k.Firm) (hk : Keeps [] k.firm k.start t t') : k.Held t' dest temp p := by
  obtain ⟨dir, kind, n, hsize, htemp, hp, hopens⟩ := h.name
  obtain ⟨c, hmem, rfl⟩ := h.target
  exact ⟨h.target, ⟨dir, kind, n, hsize, htemp, hp, hopens.keeps hc hk (hfirm c hmem)⟩, h.hasNull,
    h.short⟩

theorem lost (hmem : c ∈ k.targets) (hdest : c.dest = dest)
    (hs : c.Strands k.backup k.tried k.failures temp) : k.Lost p := by
  obtain ⟨dir, kind, n, -, rfl, hp, hopens⟩ := h.name
  subst hdest
  exact ⟨c, hmem, dir, kind, n, hopens.arrives hc, hp, hs⟩

end Held

namespace Free

theorem spot_entry (h : k.Free t dest) :
    ∃ s, t.spot .entry dest = .ok s ∧ t.get? s.path ≠ some .dir := by
  obtain ⟨names, n, dir, rfl, hn, hshort, hopens, hdir⟩ := h.place
  exact ⟨_, (hopens.spot_concat_eq_ok hn (.inl rfl)).2 ⟨h.short, hshort, rfl⟩, hdir⟩

theorem keeps (h : k.Free t dest) (hc : Confined [] k.firm k.start t) (hfirm : k.Firm)
    (hk : Keeps [] k.firm k.start t t')
    (hdirs : ∀ p, t'.get? p = some .dir → t.get? p = some .dir) : k.Free t' dest := by
  obtain ⟨names, n, dir, hdest, hn, hshort, hopens, hdir⟩ := h.place
  obtain ⟨c, hmem, rfl⟩ := h.target
  have hway := hfirm c hmem
  rw [hdest, Path.parent, List.dropLast_concat] at hway
  exact ⟨h.target, ⟨names, n, dir, hdest, hn, hshort, hopens.keeps hc hk hway, mt (hdirs _) hdir⟩,
    h.hasNull, h.short⟩

end Free

/-- The changes of the batch are made on names that no temporary file has, through links to other
names, and none replaces a link that is on the way to another. -/
structure Orderly (k : Batch) : Prop where
  target : ∀ c ∈ k.targets, c.Orderly k.start k.backup
  links : k.start.LinksNamed (¬TempPrefixed ·)
  way : k.Firm
  entry : ∀ c ∈ k.targets, ∀ q, k.start.Enters c.dest q → k.firm q → k.start.NoLink q

theorem Orderly.tried (h : k.Orderly) (tried : List Target) (failures : List (Text × Failure)) :
    Orderly { k with tried := tried, failures := failures } :=
  ⟨h.target, h.links, h.way, h.entry⟩

/-- A step of a commit keeps all that it should, and leaves nothing behind. -/
structure Behaves (k : Batch) (t t' : FileTree) : Prop where
  keeps : Keeps [] k.firm k.start t t'
  tidy : t.Tidy t'

end Batch

theorem FileTree.mem_copyTarget {t : FileTree} {source target : List Name} {n : Name}
    (h : n ∈ t.copyTarget source target) : n ∈ target ∨ n = source.getLastD [] := by
  unfold copyTarget at h
  split at h
  · obtain h | h := List.mem_append.1 h
    · split at h
      · exact .inl (List.dropLast_subset _ h)
      · exact .inl h
    · exact .inr (List.mem_singleton.1 h)
  · exact .inl h

section Calls

variable {k : Batch} {t t' : FileTree} {c : Target} (hc : Confined [] k.firm k.start t)
  (h : c.Orderly k.start k.backup)
  (hlinks : k.start.LinksNamed (¬TempPrefixed ·))
  (hentry : ∀ q, k.start.Enters c.dest q → k.firm q → k.start.NoLink q)
include hc h

section Writing

include hlinks

theorem Backup.write_behaves :
    (Backup.write k.backup c).Ends t (fun _ t' => k.Behaves t t') (fun _ t' => t' = t) := by
  have hkeeps := Backup.write_keeps hc h.bound
  suffices (Backup.write k.backup c).Ends t (fun _ t' => t.Tidy t') (fun _ t' => t' = t) by
    apply (hkeeps.and this).mono
    · exact fun _ _ h => ⟨h.1, h.2⟩
    · exact fun _ _ h => h.2
  unfold EStateM.Ends Backup.write
  cases hext : k.backup with
  | none => exact .refl t
  | some ext =>
    by_cases hskip : ext = [] ∨ c.action ≠ .modify ∨ !t.has c.dest
    · simp only [hskip, if_true]
      exact .refl t
    · simp only [hskip, if_false]
      simp only [not_or, Decidable.not_not] at hskip
      have hnames := h.kept ext hext hskip.1 hskip.2.1
      cases c.change.former with
      | none =>
        apply (copyFile_effect t c.dest (names c.dest ext)).mono
        · intro _ t' hw
          refine hw.tidy hc (fun n hn => ?_) hlinks
          obtain hn | rfl := mem_copyTarget hn
          · exact hnames n hn
          · by_cases hne : c.dest = []
            · rw [hne]
              decide
            · rw [List.getLastD_eq_getLast?, List.getLast?_eq_some_getLast hne]
              exact h.names _ (List.getLast_mem hne)
        · exact fun _ _ h => h
      | some former =>
        apply (writeFile_effect t (names c.dest ext) former.encode).mono
        · exact fun _ t' hw => hw.tidy hc hnames hlinks
        · exact fun _ _ h => h

theorem Target.writeFile_behaves (bytes : ByteArray) :
    (writeFile c.dest bytes).Ends t (fun _ t' => k.Behaves t t') (fun _ t' => t' = t) := by
  apply ((writeFile_keeps hc h.bound.place bytes).and (writeFile_effect t c.dest bytes)).mono
  · exact fun _ _ hw => ⟨hw.1, hw.2.tidy hc h.names hlinks⟩
  · exact fun _ _ hw => hw.2

end Writing

include hentry

theorem Target.removeFile_behaves :
    (removeFile c.dest).Ends t (fun _ t' => k.Behaves t t') (fun _ t' => t' = t) := by
  have hkeeps := removeFile_keeps hc h.bound.plain fun q hq =>
    ⟨List.nil_prefix, fun hf => hc.noLink (hentry q hq hf)⟩
  apply (hkeeps.and (removeFile_effect t c.dest)).mono
  · exact fun _ _ hr => ⟨hr.1, hr.2.tidy⟩
  · exact fun _ _ hr => hr.2

include hlinks

theorem Target.rename_behaves {temp : Path} (htemp : Placed [] k.start t temp) :
    (rename temp c.dest).Ends t
      (fun _ t' => k.Behaves t t' ∧ ∀ p, t.spot .entry temp = .ok ⟨p, false⟩ → ¬t'.Litter p)
      (fun e t' => t' = t ∧
        (e = .aborted .nullCharacter ∨ ∃ code, e = .between code temp c.dest)) := by
  have hkeeps := rename_keeps hc htemp h.bound.plain fun q hq =>
    ⟨List.nil_prefix, fun hf => hc.noLink (hentry q hq hf)⟩
  apply (hkeeps.and (rename_effect t temp c.dest)).mono
  · rintro _ t' ⟨hk', s, d, e, hm⟩
    have hl := (htemp.enters _ (spot_enters hc htemp.plain hm.source hm.ne_dir_source).1).2
    obtain ⟨htidy, hgone⟩ := hm.tidy hl (spot_neat hc h.names hlinks hm.target hm.free)
    refine ⟨⟨hk', htidy⟩, fun p hp => ?_⟩
    obtain rfl := Except.ok.inj (hp.symm.trans hm.source)
    exact hgone
  · exact fun _ _ h => h.2

end Calls

section Aside

variable {k : Batch} {t t' : FileTree} {c : Target} {temp dir : Path} {n : Name}
  (hfirm : k.Firm) (hc : Confined [] k.firm k.start t) (hmem : c ∈ k.targets)
  (h : c.Bound k.start [] k.backup) (ha : c.action ≠ .create)
  (hopens : t.Opens maxLinks [] c.dest.parent dir) (hn : PlainName n)
  (hplaced : Placed [] k.start t (c.dest.parent ++ [n]))
include hfirm hc hmem h ha hopens hn hplaced

theorem Target.rename_aside {b : ByteArray} (hfile : t.get? (dir ++ [n]) = some (.file b)) :
    (rename c.dest (c.dest.parent ++ [n])).Ends t (fun _ t' => k.Behaves t t' ∧ k.Free t' c.dest)
      (fun e t' => t' = t ∧
        (e = .aborted .nullCharacter ∨ ∃ code, e = .between code c.dest (c.dest.parent ++ [n]))) := by
  have hdest : Placed [] k.start t c.dest :=
    ⟨h.plain, fun q hq => ⟨List.nil_prefix, hc.noLink ((h.entry q hq).2 ha)⟩⟩
  have hkeeps := rename_keeps hc hdest hplaced.plain fun q hq =>
    ⟨List.nil_prefix, fun _ => (hplaced.enters q hq).2⟩
  apply (hkeeps.and (rename_effect t c.dest _)).mono
  · rintro _ t' ⟨hk', s, d, e, hm⟩
    have hl := (hdest.enters _ (spot_enters hc hdest.plain hm.source hm.ne_dir_source).1).2
    obtain ⟨-, -, rfl⟩ := (hopens.spot_concat_eq_ok hn (.inl rfl)).1 hm.target
    have htidy := hm.tidy_over hl hfile
    have hne : c.dest ≠ [] := by
      intro he
      have hs := hm.source
      rw [he] at hs
      cases hs
      exact hm.ne_dir_source rfl
    have hlast : c.dest = c.dest.parent ++ [c.dest.getLast hne] :=
      (List.dropLast_concat_getLast hne).symm
    have hplain : PlainName (c.dest.getLast hne) := h.plain _ (List.getLast_mem hne)
    have hs := hm.source
    rw [hlast] at hs
    obtain ⟨hshort, hsize, rfl⟩ := (hopens.spot_concat_eq_ok hplain (.inl rfl)).1 hs
    refine ⟨⟨hk', htidy⟩, ⟨c, hmem, rfl⟩, ?_, hm.hasNull.1, hlast ▸ hshort⟩
    exact ⟨_, _, dir, hlast, hplain, hsize, hopens.keeps hc hk' (hfirm c hmem),
      mt (htidy.dirs _) hm.ne_dir_source⟩
  · exact fun _ _ h => h.2

end Aside

end Emend
