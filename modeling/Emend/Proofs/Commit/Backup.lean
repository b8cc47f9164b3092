import Mathlib.Data.List.Basic
import Emend.Proofs.Commit.Success
import Emend.Proofs.FileTree.NewFile

namespace Emend

open EStateM FileTree

namespace Backup

variable {ext : Text} {p q : Path}

def place (p : Path) (ext : Text) : Path := p.dropLast ++ [p.getLastD [] ++ dotted ext]

theorem exists_dotted (ext : Text) : ∃ rest, dotted ext = '.' :: rest := by
  unfold dotted
  split
  · next hhead => exact List.head?_eq_some_iff.1 hhead
  · exact ⟨ext, rfl⟩

theorem slash_not_mem_dotted (hext : '/' ∉ ext) : '/' ∉ dotted ext := by
  unfold dotted
  split
  · exact hext
  · exact List.not_mem_cons_of_ne_of_not_mem (by decide) hext

@[simp] theorem place_concat (p : Path) (n : Name) (ext : Text) :
    place (p ++ [n]) ext = p ++ [n ++ dotted ext] := by
  simp [place]

theorem names_eq_place (hp : ∀ n ∈ p, '/' ∉ n) (hext : '/' ∉ ext) : names p ext = place p ext := by
  have hdotted := slash_not_mem_dotted hext
  obtain rfl | ⟨p, n, rfl⟩ := List.eq_nil_or_concat' p
  · exact List.splitOn_eq_singleton hdotted
  · have hlast : '/' ∉ n ++ dotted ext := by simp [hp n (by simp), hdotted]
    have hpieces : Path.pieces (n ++ dotted ext) = [n ++ dotted ext] := List.splitOn_eq_singleton hlast
    simp [names, hpieces]

theorem place_ne (p : Path) (ext : Text) : place p ext ≠ p := by
  obtain ⟨rest, hdotted⟩ := exists_dotted ext
  obtain rfl | ⟨p, n, rfl⟩ := List.eq_nil_or_concat' p
  · exact List.cons_ne_nil _ _
  · simp [hdotted]

theorem place_inj (hp : p ≠ []) (hq : q ≠ []) (h : place p ext = place q ext) : p = q := by
  obtain ⟨p, n, rfl⟩ := (List.eq_nil_or_concat' p).resolve_left hp
  obtain ⟨q, m, rfl⟩ := (List.eq_nil_or_concat' q).resolve_left hq
  rw [place_concat, place_concat] at h
  obtain ⟨rfl, hlast⟩ := List.append_inj' h rfl
  rw [List.append_cancel_right (List.cons.inj hlast).1]

theorem plain_place (hp : Path.Plain p) (hne : p ≠ []) (ext : Text) : Path.Plain (place p ext) := by
  obtain ⟨rest, hdotted⟩ := exists_dotted ext
  obtain ⟨p, n, rfl⟩ := (List.eq_nil_or_concat' p).resolve_left hne
  obtain ⟨hparent, hlast⟩ := Path.plain_append.1 hp
  obtain ⟨⟨hn, hdot, -⟩, -⟩ := Path.plain_cons.1 hlast
  obtain ⟨ch, n, rfl⟩ := List.exists_cons_of_ne_nil hn
  rw [place_concat, hdotted]
  refine Path.plain_append.2 ⟨hparent, Path.plain_cons.2 ⟨⟨by simp, by simp, fun he => ?_⟩, Path.plain_nil⟩⟩
  -- Two dots would be the name, which is no single dot, and the dot of the extension.
  obtain ⟨rfl, he⟩ := List.cons.inj he
  cases n with
  | nil => exact hdot rfl
  | cons ch' n => simp at he

end Backup

namespace Target

/-- The change is made on names without slashes, and what it modifies is a file whose text is known. -/
structure Keepable (t : FileTree) (c : Target) : Prop where
  plain : Path.Plain c.dest
  slash : ∀ n ∈ c.dest, '/' ∉ n
  known : c.action = .modify → ∃ former, c.change.former = some former ∧ Fits c.dest ∧
    t.get? c.dest = some (.file former.encode)

theorem Sound.modified {t : FileTree} {c : Target} (h : c.Sound t) (hl : t.LinkFree)
    (hp : Path.Plain c.dest) (ha : c.action = .modify) :
    ∃ former, c.change.former = some former ∧ Fits c.dest ∧
      t.get? c.dest = some (.file former.encode) := by
  cases h with
  | create ha' => exact nomatch ha'.symm.trans ha
  | known _ hf hfind =>
    obtain ⟨hfits, -, hb⟩ := (find_eq_ok hl hp).1 hfind
    exact ⟨_, hf, hfits, hb⟩
  | raw ha' => exact nomatch ha'.symm.trans ha

theorem Keepable.plain_place {t : FileTree} {c : Target} (h : c.Keepable t) (ha : c.action = .modify) (ext : Text) :
    Path.Plain (Backup.place c.dest ext) := by
  obtain ⟨former, -, -, hb⟩ := h.known ha
  exact Backup.plain_place h.plain (ne_nil_of_get? hb nofun) ext

end Target

namespace Backup

variable {t₀ t t' : FileTree} {ext : Text} {c : Target} {former : Text} {p : Path}

inductive Saves (ext : Text) (c : Target) (t : FileTree) : FileTree → Prop
  | skip (h : c.action = .modify → t.has c.dest = false) : Saves ext c t t
  | write {former : Text} (ha : c.action = .modify) (hf : c.change.former = some former)
      (hr : t.Reaches (place c.dest ext)) (hfree : t.get? (place c.dest ext) ≠ some .dir) :
      Saves ext c t (t.put (place c.dest ext) (.file former.encode))

theorem write_saves (hl : t.LinkFree) (hk : c.Keepable t₀) (hext : ext ≠ []) (hslash : '/' ∉ ext) :
    (write (some ext) c).Ends t (fun _ t' => Saves ext c t t') (fun _ _ => True) := by
  unfold write EStateM.Ends
  by_cases hskip : ext = [] ∨ c.action ≠ .modify ∨ !t.has c.dest
  · simp only [hskip, if_true]
    refine .skip fun ha => ?_
    simpa [hext, ha] using hskip
  · simp only [hskip, if_false]
    simp only [not_or, Decidable.not_not] at hskip
    obtain ⟨former, hf, -⟩ := hk.known hskip.2.1
    rw [hf, names_eq_place hk.slash hslash]
    apply (writeFile_ends hl (hk.plain_place hskip.2.1 ext) _).mono
    · rintro _ _ ⟨rfl, hr, hfree⟩
      exact .write hskip.2.1 hf hr hfree
    · exact fun _ _ _ => trivial

namespace Saves

variable (h : Saves ext c t t')
include h

theorem overwrites : t.Overwrites (fun p => c.action = .modify ∧ p = place c.dest ext) t' := by
  cases h with
  | skip => exact .none
  | write ha _ hr hfree => exact .file ⟨ha, rfl⟩ hr.2.2 hfree

theorem linkFree (hl : t.LinkFree) : t'.LinkFree := h.overwrites.linkFree hl

theorem rooted (hroot : t.Rooted) : t'.Rooted := h.overwrites.rooted hroot

theorem get?_dir (hp : t.get? p = some .dir) : t'.get? p = some .dir := h.overwrites.get?_dir.2 hp

theorem get?_of_ne (hne : c.action = .modify → p ≠ place c.dest ext) : t'.get? p = t.get? p :=
  h.overwrites.get?_of_not fun ⟨ha, hp⟩ => hne ha hp

theorem get?_place (ha : c.action = .modify) (hf : c.change.former = some former)
    (hhas : t.has c.dest = true) : t'.get? (place c.dest ext) = some (.file former.encode) := by
  cases h with
  | skip hnot => exact nomatch (hnot ha).symm.trans hhas
  | write _ hf' _ hfree =>
    obtain rfl := Option.some.inj (hf.symm.trans hf')
    exact (get?_put t (ne_nil_of_get? rfl hfree) _ _).trans (if_pos rfl)

end Saves

end Backup

namespace Target

variable {ext : Text} {c : Target} {cs : List Target} {dests : List Path} {p : Path} {b : ByteArray}
  {t t₁ t₂ t' : FileTree}

/-- What the change puts at a path: its content at its place, and what it modifies where that is backed up. -/
inductive Puts (ext : Text) (c : Target) : Path → ByteArray → Prop
  | content (hw : c.Writes) : Puts ext c c.dest c.bytes
  | backup {former : Text} (ha : c.action = .modify) (hf : c.change.former = some former) :
      Puts ext c (Backup.place c.dest ext) former.encode

def Touches (ext : Text) (c : Target) (p : Path) : Prop :=
  p = c.dest ∨ c.action = .modify ∧ p = Backup.place c.dest ext

/-- What is put at the path by the last of the changes to touch it. -/
inductive Final (ext : Text) (cs : List Target) (p : Path) (b : ByteArray) : Prop
  | intro {before after : List Target} {c : Target} (hsplit : cs = before ++ c :: after)
      (hputs : c.Puts ext p b) (hlast : ∀ c' ∈ after, ¬c'.Touches ext p)

theorem final_concat (h : Final ext (cs ++ [c]) p b) :
    c.Puts ext p b ∨ ¬c.Touches ext p ∧ Final ext cs p b := by
  obtain @⟨before, after, c', hsplit, hputs, hlast⟩ := h
  obtain rfl | ⟨after, c'', rfl⟩ := List.eq_nil_or_concat' after
  · obtain ⟨-, hc⟩ := List.append_inj' hsplit rfl
    rw [(List.cons.inj hc).1]
    exact .inl hputs
  · rw [← List.cons_append, ← List.append_assoc] at hsplit
    obtain ⟨rfl, hc⟩ := List.append_inj' hsplit rfl
    rw [(List.cons.inj hc).1]
    exact .inr ⟨hlast c'' (by simp), rfl, hputs, fun d hd => hlast d (List.mem_append_left _ hd)⟩

/-- What a change is to do that is backed up: it puts what it should, and other files at the places of
the batch stay. -/
structure Acts (ext : Text) (dests : List Path) (c : Target) (t t' : FileTree) : Prop where
  puts : ∀ p b, c.Puts ext p b → t'.get? p = some (.file b)
  others : ∀ p ∈ dests, ¬c.Touches ext p → ∀ b, t.get? p = some (.file b) → t'.get? p = some (.file b)

theorem acts_of_saves (hsaves : Backup.Saves ext c t₁ t₂)
    (hhas : c.action = .modify → t₁.has c.dest = true) (hplace : Backup.place c.dest ext ∈ dests)
    (hdest : c.Writes → t'.get? c.dest = some (.file c.bytes))
    (hother : ∀ p ∈ dests, p ≠ c.dest → ∀ b, t₂.get? p = some (.file b) → t'.get? p = some (.file b)) :
    c.Acts ext dests t₁ t' where
  puts p b hputs := by
    cases hputs with
    | content hw => exact hdest hw
    | backup ha hf => exact hother _ hplace (Backup.place_ne _ _) _ (hsaves.get?_place ha hf (hhas ha))
  others p hp htouches b hb := by
    rw [Touches, not_or, not_and] at htouches
    exact hother p hp htouches.1 b ((hsaves.get?_of_ne htouches.2).trans hb)

namespace Acts

theorem of_grows {q : Path} (hg : t.GrowsTo q t₁) (h : c.Acts ext dests t₁ t') : c.Acts ext dests t t' where
  puts := h.puts
  others p hp htouches b hb := h.others p hp htouches b (hg.get?_eq_some hb)

theorem exists_file (h : c.Acts ext dests t t') (hk : c.Keepable t₀) (hp : p ∈ dests) (hne : p ≠ c.dest)
    (hb : t.get? p = some (.file b)) : ∃ b, t'.get? p = some (.file b) := by
  by_cases htouches : c.Touches ext p
  · obtain ⟨ha, rfl⟩ := htouches.resolve_left hne
    obtain ⟨former, hf, -⟩ := hk.known ha
    exact ⟨_, h.puts _ _ (.backup ha hf)⟩
  · exact ⟨b, h.others p hp htouches b hb⟩

end Acts

end Target

/-- What was put at a path last is there. -/
def Standing (ext : Text) (cs : List Target) (t : FileTree) : Prop :=
  ∀ p b, Target.Final ext cs p b → t.get? p = some (.file b)

theorem standing_nil (ext : Text) (t : FileTree) : Standing ext [] t := by
  rintro p b ⟨hsplit, -, -⟩
  simp at hsplit

def Target.spots (ext : Text) (targets : List Target) : List Path :=
  targets.map dest ++ targets.map fun c => Backup.place c.dest ext

section Standing

variable {ext : Text} {t t' : FileTree} {targets done rest : List Target} {c : Target} {p : Path}
  {b : ByteArray}

theorem Target.dest_mem_spots (hc : c ∈ targets) : c.dest ∈ spots ext targets :=
  List.mem_append_left _ (List.mem_map_of_mem hc)

theorem Target.place_mem_spots (hc : c ∈ targets) : Backup.place c.dest ext ∈ spots ext targets :=
  List.mem_append_right _ (List.mem_map.2 ⟨c, hc, rfl⟩)

theorem Target.Final.mem_spots (h : Final ext done p b) (hsub : ∀ c ∈ done, c ∈ targets) :
    p ∈ spots ext targets := by
  obtain ⟨rfl, hputs, -⟩ := h
  have hmem := hsub _ (List.mem_append_right _ List.mem_cons_self)
  cases hputs with
  | content => exact dest_mem_spots hmem
  | backup => exact place_mem_spots hmem

theorem Standing.concat (h : Standing ext done t) (hdone : targets = done ++ rest)
    (hacts : c.Acts ext (Target.spots ext targets) t t') : Standing ext (done ++ [c]) t' := by
  intro p b hfinal
  obtain hputs | ⟨htouches, hfinal⟩ := Target.final_concat hfinal
  · exact hacts.puts p b hputs
  · have hmem := hfinal.mem_spots fun c hc => hdone ▸ List.mem_append_left rest hc
    exact hacts.others p hmem htouches b (h p b hfinal)

end Standing

namespace Direct

variable {t₀ t t' : FileTree} {ext : Text} {c : Target} {dests : List Path}

/-- A change is made in place, and what it modifies is kept. -/
theorem apply_acts (hl : t.LinkFree) (hroot : t.Rooted) (hk : c.Keepable t₀) (hext : ext ≠ [])
    (hslash : '/' ∉ ext) (hplace : Backup.place c.dest ext ∈ dests)
    (hfile : c.action = .modify → ∃ b, t.get? c.dest = some (.file b)) :
    (apply (some ext) c).Ends t (fun _ t' => t'.LinkFree ∧ t'.Rooted ∧ c.Acts ext dests t t')
      (fun _ _ => True) := by
  -- Whatever is done before it, the change itself is one that is made in place.
  have hacts {t₁ t₂ t' : FileTree} (hg : t.GrowsTo c.dest.parent t₁) (hroot₁ : t₁.Rooted)
      (hsaves : Backup.Saves ext c t₁ t₂) (ha : Applies t₂ c t') :
      t'.LinkFree ∧ t'.Rooted ∧ c.Acts ext dests t t' := by
    have hl₁ := hg.linkFree hl
    have hl₂ := hsaves.linkFree hl₁
    have hroot₂ := hsaves.rooted hroot₁
    refine ⟨ha.linkFree hl₂, ha.rooted hroot₂, .of_grows hg ?_⟩
    have hhas (hmodify : c.action = .modify) : t₁.has c.dest = true := by
      obtain ⟨former, -, hfits, -⟩ := hk.known hmodify
      obtain ⟨b, hb⟩ := hfile hmodify
      exact hroot₁.has hl₁ hk.plain hfits (by simp [hg.get?_eq_some hb])
    apply Target.acts_of_saves hsaves hhas hplace
    · intro hw
      have hb := ha.file?_dest hl₂ hroot₂ hk.plain
      rw [Target.made, if_pos hw] at hb
      exact ((file?_eq_some (ha.linkFree hl₂) (ha.rooted hroot₂) hk.plain).1 hb).2
    · intro p _ hne b hb
      obtain hsame | ⟨hn, -⟩ := ha.grownAt hne
      · rw [hsame, hb]
      · simp [hn] at hb
  simp only [apply, ends_bind, ends_get]
  split
  · next ha =>
    have hsaves : Backup.Saves ext c t t := .skip fun hmodify => by simp [ha] at hmodify
    split
    · apply (removeFile_ends hl hk.plain).mono
      · rintro _ _ ⟨rfl, hr, b, hb⟩
        exact hacts (.refl _ _) hroot hsaves (.remove ha hr hb)
      · exact fun _ _ _ => trivial
    · next hn => exact hacts (.refl _ _) hroot hsaves (.idle ha (Bool.eq_false_iff.2 hn))
  · next ha =>
    simp only [ends_bind]
    apply (makeDirs_opens hl hk.plain.parent).mono
    · intro _ t₁ ho
      have hl₁ := ho.grows.linkFree hl
      apply (Backup.write_saves hl₁ hk hext hslash).mono
      · intro _ t₂ hsaves
        apply (writeFile_ends (hsaves.linkFree hl₁) hk.plain _).mono
        · rintro _ _ ⟨rfl, hr, hfree⟩
          have ho₂ : t₂.Opened c.dest.parent t₂ :=
            ⟨ho.fits, .refl _ _, fun q hq => hsaves.get?_dir (ho.dirs q hq)⟩
          exact hacts ho.grows (ho.rooted hroot) hsaves (.write ha ho₂ hr hfree)
        · exact fun _ _ _ => trivial
      · exact fun _ _ _ => trivial
    · exact fun _ _ _ => trivial

/-- The changes in `done` have been made in place, and what those in `rest` modify is still there. -/
structure Backing (ext : Text) (targets done rest : List Target) (t : FileTree) : Prop where
  eq : targets = done ++ rest
  linkFree : t.LinkFree
  rooted : t.Rooted
  standing : Standing ext done t
  files : ∀ c ∈ rest, c.action = .modify → ∃ b, t.get? c.dest = some (.file b)

theorem Backing.step {targets done rest : List Target} (h : Backing ext targets done (c :: rest) t)
    (hk : ∀ c ∈ targets, c.Keepable t₀) (hdistinct : targets.Pairwise fun c c' => c.dest ≠ c'.dest)
    (hext : ext ≠ []) (hslash : '/' ∉ ext) :
    (apply (some ext) c).Ends t (fun _ t' => Backing ext targets (done ++ [c]) rest t')
      (fun _ _ => True) := by
  have hc : c ∈ targets := by simp [h.eq]
  obtain ⟨hfile, hfiles⟩ := List.forall_mem_cons.1 h.files
  apply (apply_acts h.linkFree h.rooted (hk c hc) hext hslash (Target.place_mem_spots hc) hfile).mono
  · rintro _ t' ⟨hl, hroot, hacts⟩
    refine ⟨by simp [h.eq], hl, hroot, h.standing.concat h.eq hacts, fun c' hc' ha => ?_⟩
    obtain ⟨b, hb⟩ := hfiles c' hc' ha
    have hmem : c' ∈ targets := by simp [h.eq, hc']
    have hne : c'.dest ≠ c.dest := by
      rw [h.eq] at hdistinct
      exact ((List.pairwise_cons.1 (List.pairwise_append.1 hdistinct).2.1).1 c' hc').symm
    exact hacts.exists_file (hk c hc) (Target.dest_mem_spots hmem) hne hb
  · exact fun _ _ _ => trivial

end Direct

namespace Workspace

variable {t₀ t : FileTree} {ext : Text} {dests : List Path} {w : Workspace} {c : Target}
  {cs : List Target}

section Overwrites

variable {P : Path → Prop} (h : Steady t₀ dests w) (ho : w.tree.Overwrites P t) (hP : ∀ p, P p → p ∈ dests)
include h ho hP

theorem Steady.overwrites : Steady t₀ dests { w with tree := t } where
  linkFree := ho.linkFree h.linkFree
  rooted := ho.rooted h.rooted
  reserves := h.reserves
  kept p hp := (h.kept p hp).congr (ho.get?_of_not fun hat => hp (hP p hat))
  staged := h.staged
  trash := h.trash
  held x hx := by
    obtain ⟨b, hb⟩ := h.held x hx
    exact ⟨b, (ho.get?_of_not fun hat => (h.trash x hx).ne_dest (hP _ hat) rfl).trans hb⟩

theorem Stocked.overwrites (hs : Stocked cs w) : Stocked cs { w with tree := t } where
  content c' hc' hw' := by
    obtain ⟨temp, hl, hb⟩ := hs.content c' hc' hw'
    have htemp := h.staged _ (Ledger.mem_of_lookup hl)
    exact ⟨temp, hl, (ho.get?_of_not fun hat => htemp.ne_dest (hP _ hat) rfl).trans hb⟩
  once := hs.once
  needed := hs.needed
  single := hs.single
  apart := hs.apart

end Overwrites

section Saves

variable (h : Steady t₀ dests w) (hsaves : Backup.Saves ext c w.tree t)
  (hplace : Backup.place c.dest ext ∈ dests)
include h hsaves hplace

theorem Steady.saves : Steady t₀ dests { w with tree := t } :=
  h.overwrites hsaves.overwrites fun _ ⟨_, hp⟩ => hp ▸ hplace

theorem Stocked.saves (hs : Stocked cs w) : Stocked cs { w with tree := t } :=
  hs.overwrites h hsaves.overwrites fun _ ⟨_, hp⟩ => hp ▸ hplace

end Saves

/-- A change is promoted, and what it modifies is kept. -/
theorem Steady.promote_saves (h : Steady t₀ dests w) (hk : c.Keepable t₀) (hext : ext ≠ [])
    (hslash : '/' ∉ ext) (hc : c.dest ∈ dests) :
    (Workspace.promote (some ext) [] c).Ends w
      (fun _ w' => ∃ t v, Backup.Saves ext c w.tree t ∧
        (c.action = .modify → w.tree.has c.dest = true) ∧ Promotes { w with tree := t } c v ∧
        w' = { v with promoted := v.promoted ++ [c] })
      (fun _ _ => True) := by
  unfold Workspace.promote
  simp only [List.contains_nil, Bool.false_eq_true, if_false]
  split
  · next ha =>
    have hmodify : c.action ≠ .modify := by simp [ha]
    rw [ends_bind]
    apply (promoteDelete_steps h.linkFree hk.plain (h.reserves _ hc) ha).mono
    · exact fun _ v hprom =>
        ⟨w.tree, v, .skip fun ha => absurd ha hmodify, fun ha => absurd ha hmodify, hprom, rfl⟩
    · exact fun _ _ _ => trivial
  · next ha =>
    simp only [ends_bind, promoteWrite, ends_get]
    split
    · trivial
    · next hm =>
      have hhas : c.action = .modify → w.tree.has c.dest = true := fun hmodify => by simpa [hmodify] using hm
      split
      · trivial
      · next temp hs =>
        have htemp := h.staged _ (Ledger.mem_of_lookup hs)
        simp only [ends_bind, ends_set, ends_call]
        apply (Backup.write_saves h.linkFree hk hext hslash).mono
        · intro _ t hsaves
          have hl := hsaves.linkFree h.linkFree
          apply (rename_moves hl htemp.plain hk.plain (htemp.ne_dest hc)).mono
          · rintro _ t' ⟨b, ht⟩
            refine ⟨t, _, hsaves, hhas, .write ha (fun hmodify => ?_) hs ht, rfl⟩
            obtain ⟨hfits, -, hsome⟩ := (has_iff h.linkFree hk.plain).1 (hhas hmodify)
            refine (hsaves.rooted h.rooted).has hl hk.plain hfits ?_
            rwa [hsaves.get?_of_ne fun _ => (Backup.place_ne _ _).symm]
          · exact fun _ _ _ => trivial
        · exact fun _ _ _ => trivial

theorem Promotes.acts {v : Workspace} (hsaves : Backup.Saves ext c w.tree t)
    (hprom : Promotes { w with tree := t } c v) (h : Steady t₀ dests w) (hs : Stocked (c :: cs) w)
    (hk : c.Keepable t₀) (hc : c.dest ∈ dests) (hplace : Backup.place c.dest ext ∈ dests)
    (hhas : c.action = .modify → w.tree.has c.dest = true) : c.Acts ext dests w.tree v.tree := by
  have hsteady := h.saves hsaves hplace
  have hstocked := hs.saves h hsaves hplace
  apply Target.acts_of_saves hsaves hhas hplace
  · intro hw
    have hb := hprom.file?_dest hsteady hc hstocked.get?_of_lookup hk.plain
    rw [Target.made, if_pos hw] at hb
    have hv := hprom.steady hsteady hc
    exact ((file?_eq_some hv.linkFree hv.rooted hk.plain).1 hb).2
  · exact fun p hp hne b hb => (hprom.get?_of_mem hsteady hp hne).trans hb

/-- The changes in `done` have been promoted, and those in `rest` are to be. -/
structure Backing (t₀ : FileTree) (ext : Text) (targets done rest : List Target) (w : Workspace) : Prop
    extends Steady t₀ (Target.spots ext targets) w, Stocked rest w where
  eq : targets = done ++ rest
  standing : Standing ext done w.tree

theorem Backing.step {targets done rest : List Target}
    (h : Backing t₀ ext targets done (c :: rest) w) (hk : ∀ c ∈ targets, c.Keepable t₀)
    (hext : ext ≠ []) (hslash : '/' ∉ ext) :
    (Workspace.promote (some ext) [] c).Ends w
      (fun _ w' => Backing t₀ ext targets (done ++ [c]) rest w') (fun _ _ => True) := by
  have hc : c ∈ targets := by simp [h.eq]
  have hdest : c.dest ∈ Target.spots ext targets := Target.dest_mem_spots hc
  have hplace : Backup.place c.dest ext ∈ Target.spots ext targets := Target.place_mem_spots hc
  apply (h.toSteady.promote_saves (hk c hc) hext hslash hdest).mono
  · rintro _ _ ⟨t, v, hsaves, hhas, hprom, rfl⟩
    have hsteady := h.toSteady.saves hsaves hplace
    have hstocked := h.toStocked.saves h.toSteady hsaves hplace
    have hacts := hprom.acts hsaves h.toSteady h.toStocked (hk c hc) hdest hplace hhas
    constructor
    case toSteady => exact { hprom.steady hsteady hdest with }
    case toStocked => exact { hprom.stocked hsteady hdest hstocked with }
    case eq => simp [h.eq]
    case standing => exact h.standing.concat h.eq hacts
  · exact fun _ _ _ => trivial

theorem spots_reserved (t : FileTree) (ext : Text) (targets : List Target)
    (hslash : '/' ∉ ext) (hk : ∀ c ∈ targets, c.Keepable t₀) :
    ∀ d ∈ Target.spots ext targets, ∀ n ∈ d, n ∈ (start t (some ext) targets).reserved := by
  intro d hd n hn
  obtain hd | hd := List.mem_append.1 hd
  · exact start_reserves t (some ext) targets d hd n hn
  · obtain ⟨c, hc, rfl⟩ := List.mem_map.1 hd
    apply List.mem_append_left
    refine List.mem_flatMap.2 ⟨c, hc, List.mem_append_right _ ?_⟩
    simpa [Backup.names_eq_place (hk c hc).slash hslash] using hn

end Workspace

namespace Commit

variable {t : FileTree} {ext : Text} {targets : List Target} {policy : Policy} {base : RealPath}
  {changes : List Change} {options : Options} {s : Summary}
  (hl : t.LinkFree) (hroot : t.Rooted) (hext : ext ≠ []) (hslash : '/' ∉ ext)
include hl hroot hext hslash

section Whole

variable (hk : ∀ c ∈ targets, c.Keepable t)
include hk

theorem direct_stands (hdistinct : targets.Pairwise fun c c' => c.dest ≠ c'.dest)
    (hs : (direct t policy (some ext) [] targets).outcome = .ok s) (hf : s.failed = []) :
    Standing ext targets (direct t policy (some ext) [] targets).tree := by
  have hstart : Direct.Backing ext targets [] targets t := by
    refine ⟨rfl, hl, hroot, standing_nil ext t, fun c hc ha => ?_⟩
    obtain ⟨former, -, -, hb⟩ := (hk c hc).known ha
    exact ⟨_, hb⟩
  obtain ⟨-, hclean⟩ := clean_of_direct hs hf
  obtain ⟨-, -, done, h⟩ | ⟨e, t', -, hstopped⟩ :=
    Pass.run_first Target.path (directStep (some ext))
      (fun rest t' => ∃ done, Direct.Backing ext targets done rest t') policy [] (fun _ _ => True)
      (by
        rintro c rest t' ⟨done, h⟩
        simp only [directStep, ends_adaptExcept, ends_map]
        exact (h.step hk hdistinct hext hslash).imp_ok fun _ _ h => ⟨_, h⟩)
      ⟨[], hstart⟩
  · obtain rfl : targets = done := by simpa using h.eq
    rw [direct_of_clean hclean]
    exact h.standing
  · exact absurd hclean hstopped.not_clean

theorem atomic_stands (hs : (atomic t policy (some ext) [] targets).outcome = .ok s)
    (hf : s.failed = []) : Standing ext targets (atomic t policy (some ext) [] targets).tree := by
  obtain ⟨-, hstaged, hpromoted⟩ := clean_of_atomic hs hf
  obtain ⟨-, -, hprepared, -⟩ | ⟨e, w', -, hstopped⟩ := Workspace.stage_all hl hroot
    (fun c hc => (hk c hc).plain) policy (Workspace.spots_reserved t ext targets hslash hk)
  · obtain ⟨-, -, done, h⟩ | ⟨e, w', -, hstopped⟩ :=
      Pass.run_first Target.path (Workspace.promote (some ext))
        (fun rest w => ∃ done, Workspace.Backing t ext targets done rest w) policy [] (fun _ _ => True)
        (by
          rintro c rest w ⟨done, h⟩
          exact (h.step hk hext hslash).imp_ok fun _ _ h => ⟨_, h⟩)
        ⟨[], hprepared.steady, hprepared.toStocked, rfl, standing_nil ext _⟩
    · obtain rfl : targets = done := by simpa using h.eq
      rw [atomic_of_clean hstaged hpromoted]
      intro p b hfinal
      have hmem := hfinal.mem_spots fun _ hc => hc
      exact (h.toSteady.get?_discard hmem).trans (h.standing p b hfinal)
    · exact absurd hpromoted hstopped.not_clean
  · exact absurd hstaged hstopped.not_clean

end Whole

/-- If no failure is reported, what the changes put at a path last is there. -/
theorem run_stands (hdry : options.dryRun = false) (hbackup : options.backupExt = some ext)
    {names : List Name} (hb : t.realPath names = .ok base)
    (hres : changes.map (Change.resolve t base) = targets.map .ok) (hplanned : Target.Planned t targets)
    (hbase : ∀ n ∈ base.path, '/' ∉ n) (hs : (run t names changes policy options).outcome = .ok s)
    (hf : s.failed = []) : Standing ext targets (run t names changes policy options).tree := by
  have hplain : Path.Plain base.path := realPath_plain hb
  have hk : ∀ c ∈ targets, c.Keepable t := by
    intro c hc
    obtain ⟨-, -, hdests⟩ := Change.resolve_all hl hplain hres
    obtain ⟨-, hwalk⟩ := Path.resolve?_eq_some.1 (RealPath.resolve?_eq_some (hdests c hc))
    refine ⟨hplanned.plain c hc, ?_, (hplanned.sound c hc).modified hl (hplanned.plain c hc)⟩
    rw [← hwalk]
    exact Path.forall_mem_walk hbase fun n hn => Text.not_mem_of_mem_splitOn hn
  rw [run_eq_runAt hb] at hs ⊢
  obtain ⟨houtcome, htree⟩ := runAt_resolved hdry hres policy
  rw [houtcome, hbackup] at hs
  rw [htree, hbackup]
  cases hatomic : options.atomic with
  | true =>
    simp only [hatomic, if_true] at hs ⊢
    exact atomic_stands hl hroot hext hslash hk hs hf
  | false =>
    simp only [hatomic, Bool.false_eq_true, if_false] at hs ⊢
    exact direct_stands hl hroot hext hslash hk hplanned.apart hs hf

end Commit

end Emend
