import Mathlib.Logic.Function.Basic
import Emend.Proofs.Commit.Steady
import Emend.Proofs.Commit.Target

namespace Emend

open EStateM FileTree

namespace Target

/-- What the change knows the file at its place to hold. -/
def known (c : Target) : Option ByteArray := c.change.former.map Text.encode

/-- The change agrees with what it finds at its place: it makes a file where there is none, modifies
one whose text it knows, if there is one, and is not wrong on the text of one that it deletes. -/
def Agrees (c : Target) (here : Option ByteArray) : Prop :=
  match c.action with
  | .create => here = none
  | .modify => here = none ∨ here = c.known
  | .delete => c.known = none ∨ here = c.known
  | .other _ => False

/-- The change deletes a file whose text it does not know, so the file is set aside. -/
def SetsAside (c : Target) (here : Option ByteArray) : Prop :=
  c.action = .delete ∧ c.known = none ∧ here.isSome

instance (c : Target) (here : Option ByteArray) : Decidable (c.Agrees here) := by
  letI : DecidableEq ByteArray := ByteArray.instDecidableEq
  unfold Agrees
  split <;> infer_instance

instance (c : Target) (here : Option ByteArray) : Decidable (c.SetsAside here) :=
  inferInstanceAs (Decidable (_ ∧ _))

/-- Each change agrees with the files that it finds when its turn comes, those at the paths in `aside`
having been set aside: none of these is deleted again. -/
def AgreeInTurn (files : Path → Option ByteArray) (aside : List Path) : List Target → Prop
  | [] => True
  | c :: cs =>
    c.Agrees (files c.dest) ∧ (c.action = .delete → c.dest ∉ aside) ∧
      AgreeInTurn (Function.update files c.dest c.made)
        (if c.SetsAside (files c.dest) then c.dest :: aside else aside) cs

instance AgreeInTurn.decidable (files : Path → Option ByteArray) (aside : List Path) (cs : List Target) :
    Decidable (AgreeInTurn files aside cs) :=
  match cs with
  | [] => .isTrue trivial
  | _ :: cs => @instDecidableAnd _ _ _ (@instDecidableAnd _ _ _ (decidable _ _ cs))

theorem AgreeInTurn.of_isPrefix {files : Path → Option ByteArray} {aside : List Path}
    {cs cs' : List Target} (h : AgreeInTurn files aside cs) (hcs : cs' <+: cs) :
    AgreeInTurn files aside cs' := by
  induction cs' generalizing files aside cs with
  | nil => trivial
  | cons c cs' ih =>
    obtain ⟨rest, rfl⟩ := hcs
    exact ⟨h.1, h.2.1, ih h.2.2 (List.prefix_append _ _)⟩

section Sound

variable {t : FileTree}

theorem Sound.agrees {c : Target} (h : c.Sound t) : c.Agrees (t.file? c.dest) := by
  have hfile {b : ByteArray} (hfind : t.find c.dest = .ok (.file b)) : t.file? c.dest = some b :=
    file?_eq_some_iff_find.2 hfind
  cases h with
  | create ha hn =>
    simp only [Agrees, ha]
    cases hf : t.file? c.dest with
    | none => rfl
    | some b =>
      rw [has, file?_eq_some_iff_find.1 hf] at hn
      cases hn
  | known ha hf hfind =>
    have hknown : t.file? c.dest = c.known := by 
      rw [hfile hfind, Target.known, hf, Option.map_some]
    obtain ha | ha := ha <;> simp [Agrees, ha, hknown]
  | raw ha hf hfind => simp [Agrees, ha, Target.known, hf]

theorem Planned.agreeInTurn {targets : List Target} (h : Planned t targets) :
    AgreeInTurn t.file? [] targets := by
  suffices ∀ files aside, (∀ c ∈ targets, files c.dest = t.file? c.dest) →
      (∀ c ∈ targets, c.dest ∉ aside) → AgreeInTurn files aside targets from
    this _ _ (fun _ _ => rfl) fun _ _ => List.not_mem_nil
  obtain ⟨hsound, -, hapart⟩ := h
  induction targets with
  | nil => exact fun _ _ _ _ => trivial
  | cons c targets ih =>
    intro files aside hfiles haside
    obtain ⟨hs, hsound⟩ := List.forall_mem_cons.1 hsound
    obtain ⟨hne, hapart⟩ := List.pairwise_cons.1 hapart
    obtain ⟨hfile, hfiles⟩ := List.forall_mem_cons.1 hfiles
    obtain ⟨hnew, haside⟩ := List.forall_mem_cons.1 haside
    refine ⟨hfile ▸ hs.agrees, fun _ => hnew, ih hsound hapart _ _ ?_ ?_⟩
    · intro c' hc'
      rw [Function.update_of_ne (hne c' hc').symm, hfiles c' hc']
    · intro c' hc'
      split
      · simp [(hne c' hc').symm, haside c' hc']
      · exact haside c' hc'

end Sound

end Target

namespace Workspace

variable {t₀ : FileTree} {dests : List Path} {u v w w' : Workspace} {c : Target} {cs : List Target}

/-- A temporary file of the commit that nothing is to be put back from. -/
def Spare (t₀ : FileTree) (dests : List Path) (trash : Ledger Path Path) (p : Path) : Prop :=
  (∃ kind, Tracked t₀ dests kind p) ∧ ∀ d, trash.lookup d ≠ some p

/-- The workspaces differ in what is at spare temporary files only. -/
structure Alike (t₀ : FileTree) (dests : List Path) (u w : Workspace) : Prop where
  linkFree : u.tree.LinkFree
  tree : ∀ p, u.tree.get? p = w.tree.get? p ∨
    Spare t₀ dests w.trash p ∧ u.tree.get? p ≠ some .dir ∧ w.tree.get? p ≠ some .dir
  trash : ∀ d, u.trash.lookup d = w.trash.lookup d
  tracked : ∀ x ∈ u.staged ++ u.trash, ∃ kind, Tracked t₀ dests kind x.2

namespace Alike

variable (h : Alike t₀ dests u w)
include h

theorem get?_dest {p : Path} (hp : p ∈ dests) : u.tree.get? p = w.tree.get? p := by
  obtain he | ⟨⟨⟨_, ht⟩, -⟩, -⟩ := h.tree p
  · exact he
  · exact absurd rfl (ht.ne_dest hp)

theorem get?_trash {d temp : Path} (hd : w.trash.lookup d = some temp) :
    u.tree.get? temp = w.tree.get? temp := by
  obtain he | ⟨⟨-, hspare⟩, -⟩ := h.tree temp
  · exact he
  · exact absurd hd (hspare d)

theorem get?_dir {p : Path} : u.tree.get? p = some .dir ↔ w.tree.get? p = some .dir := by
  obtain he | ⟨-, hu, hw⟩ := h.tree p
  · rw [he]
  · exact ⟨fun h => absurd h hu, fun h => absurd h hw⟩

theorem reaches {p : Path} (hp : w.tree.Reaches p) : u.tree.Reaches p :=
  hp.mono fun _ hq => h.get?_dir.2 hq

theorem undo {w₀ : Workspace} (hlinks : v.tree.LinkFree)
    (htree : ∀ p, v.tree.get? p = w₀.tree.get? p ∨ v.tree.get? p = u.tree.get? p ∧
      (w.tree.get? p = w₀.tree.get? p ∨
        Spare t₀ dests w₀.trash p ∧ w.tree.get? p ≠ some .dir ∧ w₀.tree.get? p ≠ some .dir))
    (hdirs : ∀ p, w₀.tree.get? p = some .dir → w.tree.get? p = some .dir)
    (hspare : ∀ p, Spare t₀ dests w.trash p → Spare t₀ dests w₀.trash p)
    (htrash : ∀ d, v.trash.lookup d = w₀.trash.lookup d)
    (htracked : ∀ x ∈ v.staged ++ v.trash, x ∈ u.staged ++ u.trash) : Alike t₀ dests v w₀ where
  linkFree := hlinks
  tree := by
    intro p
    obtain he | ⟨hvu, hw⟩ := htree p
    · exact .inl he
    · rw [hvu]
      obtain he | ⟨hp, hu, hnot⟩ := h.tree p
      · rw [he]
        exact hw
      · exact .inr ⟨hspare p hp, hu, fun hd => hnot (hdirs p hd)⟩
  trash := htrash
  tracked x hx := h.tracked x (htracked x hx)

end Alike

namespace Steady

variable {kind : TempKind} {temp : Path} (h : Steady t₀ dests w)
include h

theorem spare_drawn (hd : w.tree.Drawn w.reserved kind temp) : Spare t₀ dests w.trash temp :=
  ⟨⟨kind, h.tracked hd⟩, fun _ he => h.drawn_ne_trash hd (Ledger.mem_of_lookup he) rfl⟩

theorem spare_staged (ht : Tracked t₀ dests .staged temp) : Spare t₀ dests w.trash temp := by
  refine ⟨⟨_, ht⟩, fun d he => ?_⟩
  have hkind := ht.kind_eq (h.trash _ (Ledger.mem_of_lookup he))
  cases hkind

/-- What is left of a change that fails makes no difference to the way back. -/
theorem alike_of_halts (hh : Halts w c w') : Alike t₀ dests w' w := by
  cases hh with
  | same => exact ⟨h.linkFree, fun _ => .inl rfl, fun _ => rfl, fun _ => h.exists_tracked⟩
  | unstaged =>
    refine ⟨h.linkFree, fun _ => .inl rfl, fun _ => rfl, fun x hx => h.exists_tracked ?_⟩
    obtain hx | hx := List.mem_append.1 hx
    · exact List.mem_append_left _ (Ledger.mem_remove.1 hx).1
    · exact List.mem_append_right _ hx
  | @drawn temp hd hholds =>
    have hlinks := (h.put hd hholds .empty).linkFree
    refine ⟨hlinks, fun p => ?_, fun _ => rfl, fun _ => h.exists_tracked⟩
    by_cases hp : p = temp
    · subst hp
      exact .inr ⟨h.spare_drawn hd, ne_dir_of_get? hd.get?_put_self, by simp [hd.free]⟩
    · exact .inl (hd.get?_put_of_ne hp)

end Steady

section Undo

theorem undo_of_ne_create (ha : c.action ≠ .create) :
    Workspace.undo c = (do
      let w ← get
      match w.trash.lookup c.dest with
      | some temp =>
        set { w with trash := w.trash.remove c.dest }
        call (FileTree.rename temp c.dest)
      | none =>
        match c.change.former with
        | some former => call (FileTree.writeFile c.dest former.encode)
        | none => pure ()) := by
  unfold Workspace.undo
  split
  · next ha' => exact absurd ha' ha
  · rfl

theorem undo_of_lookup_eq_none {ok : Unit → Workspace → Prop} {error : Failure → Workspace → Prop}
    (ha : c.action ≠ .create) (hn : u.trash.lookup c.dest = none) :
    (Workspace.undo c).Ends u ok error ↔
      (match c.change.former with
        | some former => call (writeFile c.dest former.encode)
        | none => pure () : Work Unit).Ends u ok error := by
  rw [undo_of_ne_create ha]
  simp only [ends_bind, ends_get, hn]

variable {b : ByteArray}

theorem undo_known (hl : u.tree.LinkFree) (hp : Path.Plain c.dest) (ha : c.action ≠ .create)
    (hn : u.trash.lookup c.dest = none) (hknown : c.known = some b) :
    (Workspace.undo c).Ends u
      (fun _ v => v = { u with tree := u.tree.put c.dest (.file b) } ∧ u.tree.Reaches c.dest ∧
        u.tree.get? c.dest ≠ some .dir)
      (fun _ v => v = u ∧ ¬(u.tree.Reaches c.dest ∧ u.tree.get? c.dest ≠ some .dir)) := by
  obtain ⟨former, hf, rfl⟩ := Option.map_eq_some_iff.1 hknown
  rw [undo_of_lookup_eq_none ha hn]
  simp only [hf, ends_call]
  apply (writeFile_ends hl hp _).mono
  · rintro _ _ ⟨rfl, h⟩
    exact ⟨rfl, h⟩
  · rintro _ _ ⟨rfl, h⟩
    exact ⟨rfl, h⟩

section Write

variable {temp : Path} {t : FileTree} (h : Steady t₀ dests w) (hp : Path.Plain c.dest)
  (hc : c.dest ∈ dests) (hs : w.staged.lookup c.dest = some temp) (ht : w.tree.Moved temp c.dest b t)
  (hu : Alike t₀ dests u { w with tree := t, staged := w.staged.remove c.dest })
include h hs ht hu

theorem Alike.unwrite {t' : FileTree} (hlinks : t'.LinkFree) (hdest : t'.get? c.dest = w.tree.get? c.dest)
    (hother : ∀ p, p ≠ c.dest → t'.get? p = u.tree.get? p) : Alike t₀ dests { u with tree := t' } w := by
  have htemp := h.staged _ (Ledger.mem_of_lookup hs)
  refine hu.undo hlinks (fun p => ?_) (fun _ => ht.get?_dir) (fun _ hspare => hspare) hu.trash
    (fun _ hx => hx)
  by_cases hpc : p = c.dest
  · exact .inl (hpc ▸ hdest)
  · refine .inr ⟨hother p hpc, ?_⟩
    by_cases hpt : p = temp
    · subst hpt
      exact .inr ⟨h.spare_staged htemp, by simp [ht.get?_source hpc], by simp [ht.source]⟩
    · exact .inl (ht.get?_of_ne hpt hpc)

omit h hs in
include hc in
theorem Alike.get?_written : u.tree.Reaches c.dest ∧ u.tree.get? c.dest = some (.file b) :=
  ⟨hu.reaches (ht.reaches_target.mono fun _ => ht.get?_dir), (hu.get?_dest hc).trans ht.get?_target⟩

include hp hc

theorem undo_create (ha : c.action = .create) (hnone : w.tree.file? c.dest = none) :
    (Workspace.undo c).Ends u (fun _ v => Alike t₀ dests v w) (fun _ _ => False) := by
  obtain ⟨hreach, hfile⟩ := hu.get?_written hc ht
  have hdir := ne_dir_of_get? hfile
  have herase := get?_erase u.tree (ne_nil_of_get? rfl hdir)
  simp only [Workspace.undo, ends_bind, ends_get, ha]
  rw [if_pos (hreach.has hu.linkFree hp (by simp [hfile])), ends_call]
  apply (removeFile_ends hu.linkFree hp).mono
  · rintro _ _ ⟨rfl, -⟩
    refine hu.unwrite h hs ht (hu.linkFree.erase (ne_nil_of_get? rfl hdir)) ?_ fun p hpc => ?_
    · rw [herase, if_pos rfl, get?_eq_none_of_file? h.linkFree h.rooted hp ht.reaches_target.2.1 hnone
        ht.free]
    · rw [herase, if_neg hpc]
  · rintro _ _ ⟨-, hnot⟩
    exact hnot ⟨hreach, b, hfile⟩

theorem undo_modify {former : ByteArray} (ha : c.action ≠ .create)
    (htrash : w.trash.lookup c.dest = none) (hformer : w.tree.file? c.dest = some former)
    (hknown : c.known = some former) :
    (Workspace.undo c).Ends u (fun _ v => Alike t₀ dests v w) (fun _ _ => False) := by
  obtain ⟨hreach, hfile⟩ := hu.get?_written hc ht
  have hdir := ne_dir_of_get? hfile
  have hput := get?_put u.tree (ne_nil_of_get? rfl hdir) (.file former)
  apply (undo_known hu.linkFree hp ha ((hu.trash _).trans htrash) hknown).mono
  · rintro _ _ ⟨rfl, -⟩
    refine hu.unwrite h hs ht (hu.linkFree.put (ne_nil_of_get? rfl hdir) (by simp)) ?_ fun p hpc => ?_
    · rw [hput, if_pos rfl, ((file?_eq_some h.linkFree h.rooted hp).1 hformer).2]
    · rw [hput, if_neg hpc]
  · rintro _ _ ⟨-, hnot⟩
    exact hnot ⟨hreach, hdir⟩

theorem undo_write (ha : c.Writes) (hm : c.action = .modify → w.tree.has c.dest = true)
    (hagree : c.Agrees (w.tree.file? c.dest)) (htrash : c.action ≠ .create → w.trash.lookup c.dest = none) :
    (Workspace.undo c).Ends u (fun _ v => Alike t₀ dests v w) (fun _ _ => False) := by
  cases haction : c.action with
  | create =>
    simp only [Target.Agrees, haction] at hagree
    exact undo_create h hp hc hs ht hu haction hagree
  | modify =>
    simp only [Target.Agrees, haction] at hagree
    obtain ⟨former, hformer⟩ := exists_file?_of_has h.linkFree h.rooted hp (hm haction) ht.free
    rw [hformer] at hagree
    have hne : c.action ≠ .create := by simp [haction]
    have hknown : c.known = some former := (hagree.resolve_left (by simp)).symm
    exact undo_modify h hp hc hs ht hu hne (htrash hne) hformer hknown
  | delete => exact absurd haction ha
  | other n => simp [Target.Agrees, haction] at hagree

end Write

section Delete

variable (h : Steady t₀ dests w) (hp : Path.Plain c.dest) (ha : c.action = .delete)
  (htrash : w.trash.lookup c.dest = none)

include h hp ha htrash in
theorem undo_remove (hc : c.dest ∈ dests) (hf : c.change.former ≠ none) (hr : w.tree.Reaches c.dest)
    (hb : w.tree.get? c.dest = some (.file b)) (hagree : c.Agrees (w.tree.file? c.dest))
    (hu : Alike t₀ dests u { w with tree := w.tree.erase c.dest }) :
    (Workspace.undo c).Ends u (fun _ v => Alike t₀ dests v w) (fun _ _ => False) := by
  have hne : c.action ≠ .create := by simp [ha]
  have hfile := (file?_eq_some h.linkFree h.rooted hp).2 ⟨hr.2.1, hb⟩
  simp only [Target.Agrees, ha, hfile] at hagree
  have hknown : c.known = some b := (hagree.resolve_left (by simpa [Target.known] using hf)).symm
  have hdir := ne_dir_of_get? hb
  have herase := get?_erase w.tree (ne_nil_of_get? rfl hdir)
  have hgone : u.tree.get? c.dest = none := (hu.get?_dest hc).trans ((herase _).trans (if_pos rfl))
  have hudir : u.tree.get? c.dest ≠ some .dir := by simp [hgone]
  have hput := get?_put u.tree (ne_nil_of_get? rfl hudir) (.file b)
  have hdirs : ∀ p, w.tree.get? p = some .dir → (w.tree.erase c.dest).get? p = some .dir :=
    get?_dir_erase hdir
  apply (undo_known hu.linkFree hp hne ((hu.trash _).trans htrash) hknown).mono
  · rintro _ _ ⟨rfl, -⟩
    refine hu.undo (hu.linkFree.put (ne_nil_of_get? rfl hudir) (by simp)) (fun p => ?_) hdirs
      (fun _ hspare => hspare) hu.trash (fun _ hx => hx)
    by_cases hpc : p = c.dest
    · subst hpc
      exact .inl ((hput _).trans ((if_pos rfl).trans hb.symm))
    · exact .inr ⟨(hput p).trans (if_neg hpc), .inl ((herase p).trans (if_neg hpc))⟩
  · rintro _ _ ⟨-, hnot⟩
    exact absurd ⟨hu.reaches (hr.mono hdirs), hudir⟩ hnot

section SetAside

variable {temp : Path} {t : FileTree} (hd : w.tree.Drawn w.reserved .setAside temp)
  (ht : (w.tree.put temp (.file .empty)).Moved c.dest temp b t)
  (hu : Alike t₀ dests u { w with tree := t, trash := w.trash.set c.dest temp })
include htrash hd ht hu

theorem Alike.putBack (hdest : c.dest ≠ temp) {t' : FileTree} (hv : u.tree.Moved temp c.dest b t') :
    Alike t₀ dests { u with tree := t', trash := u.trash.remove c.dest } w := by
  refine hu.undo (hv.linkFree hu.linkFree) (fun p => ?_) (fun p hdir => ?_) ?_ (fun d => ?_) fun x hx => ?_
  · by_cases hpc : p = c.dest
    · subst hpc
      exact .inl (hv.get?_target.trans (ht.source.symm.trans (hd.get?_put_of_ne hdest)))
    · by_cases hpt : p = temp
      · subst hpt
        exact .inl ((hv.get?_source hpc).trans hd.free.symm)
      · refine .inr ⟨hv.get?_of_ne hpt hpc, .inl ?_⟩
        exact (ht.get?_of_ne hpc hpt).trans (hd.get?_put_of_ne hpt)
  · exact ht.get?_dir (get?_dir_put (by simp [hd.free]) p hdir)
  · rintro p ⟨hkind, hp'⟩
    refine ⟨hkind, fun d hd' => ?_⟩
    by_cases hdc : d = c.dest
    · rw [hdc, htrash] at hd'
      cases hd'
    · exact hp' d (Ledger.lookup_set.trans ((if_neg hdc).trans hd'))
  · rw [Ledger.lookup_remove]
    split
    · next hdc => rw [hdc, htrash]
    · next hdc => rw [hu.trash d, Ledger.lookup_set, if_neg hdc]
  · obtain hx | hx := List.mem_append.1 hx
    · exact List.mem_append_left _ hx
    · exact List.mem_append_right _ (Ledger.mem_remove.1 hx).1

include h hp ha in
theorem undo_setAside (hc : c.dest ∈ dests) :
    (Workspace.undo c).Ends u (fun _ v => Alike t₀ dests v w) (fun _ _ => False) := by
  have htemp := h.tracked hd
  have hdest : c.dest ≠ temp := (htemp.ne_dest hc).symm
  have hset : (w.trash.set c.dest temp).lookup c.dest = some temp := Ledger.lookup_set.trans (if_pos rfl)
  have hfile : u.tree.get? temp = some (.file b) := (hu.get?_trash hset).trans ht.get?_target
  have hgone : u.tree.get? c.dest = none := (hu.get?_dest hc).trans (ht.get?_source hdest)
  have hrt : u.tree.Reaches temp := hu.reaches (ht.reaches_target.mono fun _ => ht.get?_dir)
  have hrd : u.tree.Reaches c.dest := hu.reaches (ht.reaches.mono fun _ => ht.get?_dir)
  rw [undo_of_ne_create (by simp [ha])]
  simp only [ends_bind, ends_get, (hu.trash _).trans hset, ends_set, ends_call]
  apply (rename_moves hu.linkFree htemp.plain hp hdest.symm).mono
  · rintro _ v ⟨b', hv⟩
    obtain rfl : b = b' := by simpa [hfile] using hv.source
    exact hu.putBack htrash hd ht hdest hv
  · rintro _ _ ⟨-, hnot⟩
    exact hnot ⟨hrt, hrd, ⟨b, hfile⟩, by simp [hgone]⟩

end SetAside

include h hp ha htrash in
/-- The file that is known to be there could have been deleted, so none is known. -/
theorem undo_idle (hn : w.tree.has c.dest = false) (hagree : c.Agrees (w.tree.file? c.dest))
    (hu : Alike t₀ dests u w) :
    (Workspace.undo c).Ends u (fun _ v => Alike t₀ dests v w) (fun _ _ => False) := by
  simp only [Target.Agrees, ha] at hagree
  cases hknown : c.known with
  | none =>
    have hf : c.change.former = none := by simpa [Target.known] using hknown
    rw [undo_of_lookup_eq_none (by simp [ha]) ((hu.trash _).trans htrash)]
    simp only [hf]
    exact hu
  | some b =>
    rw [hknown] at hagree
    obtain ⟨hfits, hb⟩ := (file?_eq_some h.linkFree h.rooted hp).1 (hagree.resolve_left (by simp))
    rw [h.rooted.has h.linkFree hp hfits (by simp [hb])] at hn
    cases hn

end Delete

/-- The undoing of a change that was promoted takes back all that it did. -/
theorem undo_alike (h : Steady t₀ dests w) (hp : Path.Plain c.dest) (hc : c.dest ∈ dests)
    (hu : Alike t₀ dests u w') (hagree : c.Agrees (w.tree.file? c.dest))
    (htrash : c.action ≠ .create → w.trash.lookup c.dest = none) (hprom : Promotes w c w') :
    (Workspace.undo c).Ends u (fun _ v => Alike t₀ dests v w) (fun _ _ => False) := by
  have hnone (ha : c.action = .delete) : w.trash.lookup c.dest = none := htrash (by simp [ha])
  cases hprom with
  | write ha hm hs ht => exact undo_write h hp hc hs ht hu ha hm hagree htrash
  | remove ha hf hr hb => exact undo_remove h hp ha (hnone ha) hc hf hr hb hagree hu
  | setAside ha _ _ hd ht => exact undo_setAside h hp ha (hnone ha) hd ht hu hc
  | idle ha hn => exact undo_idle h hp ha (hnone ha) hn hagree hu

end Undo

end Workspace

end Emend
