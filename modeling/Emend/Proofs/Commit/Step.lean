import Emend.Commit.Atomic
import Emend.Proofs.Commit.Ledger
import Emend.Proofs.FileTree.Kept

namespace Emend

open EStateM

namespace FileTree

/-- The file at the first path is at the second one now. -/
structure Moved (t : FileTree) (p q : Path) (b : ByteArray) (t' : FileTree) : Prop where
  source : t.get? p = some (.file b)
  free : t.get? q ≠ some .dir
  reaches : t.Reaches p
  reaches_target : t.Reaches q
  eq : t' = (t.erase p).put q (.file b)

namespace Moved

variable {t t' : FileTree} {p q : Path} {b : ByteArray} (h : t.Moved p q b t')
include h

theorem get?_target : t'.get? q = some (.file b) := by
  rw [h.eq]
  exact get?_move_target (ne_dir_of_get? h.source) h.free _

theorem get?_source (hne : p ≠ q) : t'.get? p = none := by
  rw [h.eq]
  exact get?_move_source (ne_dir_of_get? h.source) h.free _ hne

theorem get?_of_ne {r : Path} (hp : r ≠ p) (hq : r ≠ q) : t'.get? r = t.get? r := by
  rw [h.eq]
  exact get?_move_of_ne (ne_dir_of_get? h.source) h.free _ hp hq

theorem get?_dir {r : Path} (hr : t.get? r = some .dir) : t'.get? r = some .dir := by
  rw [h.eq]
  exact get?_dir_move (ne_dir_of_get? h.source) h.free _ r hr

theorem linkFree (hl : t.LinkFree) : t'.LinkFree := by
  rw [h.eq]
  exact hl.move (ne_dir_of_get? h.source) h.free

theorem rooted (hroot : t.Rooted) : t'.Rooted := by
  have hdir := ne_dir_of_get? h.source
  rw [h.eq]
  apply (hroot.erase hdir).put_of_holds
  · exact h.reaches_target.2.2.mono (get?_dir_erase hdir)
  · intro hq
    rw [get?_erase t (ne_nil_of_get? rfl hdir)] at hq
    split at hq
    · cases hq
    · exact h.free hq

end Moved

theorem Drawn.not_isPrefix {t : FileTree} {reserved : List Name} {kind : TempKind} {temp p : Path}
    (hd : t.Drawn reserved kind temp) (hp : ∀ n ∈ p, n ∈ reserved) : ¬temp <+: p := by
  intro h
  obtain ⟨dir, n, rfl, hn⟩ := hd.name
  exact hn.unreserved (hp _ (h.mem (by simp)))

theorem Drawn.ne {t : FileTree} {reserved : List Name} {kind : TempKind} {temp p : Path}
    (hd : t.Drawn reserved kind temp) (hp : ∀ n ∈ p, n ∈ reserved) : p ≠ temp := by
  rintro rfl
  exact hd.not_isPrefix hp (List.prefix_refl p)

theorem rename_moves {t : FileTree} {p q : Path} (hl : t.LinkFree) (hp : Path.Plain p)
    (hq : Path.Plain q) (hne : p ≠ q) :
    (rename p q).Ends t (fun _ t' => ∃ b, t.Moved p q b t')
      (fun _ t' => t' = t ∧
        ¬(t.Reaches p ∧ t.Reaches q ∧ (∃ b, t.get? p = some (.file b)) ∧ t.get? q ≠ some .dir)) := by
  apply (rename_ends hl hp hq hne).mono
  · intro _ t' h
    obtain ⟨b, hb, hfree, hr, hr', he⟩ := h
    exact ⟨b, hb, hfree, hr, hr', he⟩
  · exact fun _ _ h => h

end FileTree

open FileTree

namespace Target

def Writes (c : Target) : Prop := c.action ≠ .delete

instance (c : Target) : Decidable c.Writes := inferInstanceAs (Decidable (_ ≠ _))

end Target

namespace Workspace

theorem ends_call {α : Type} {x : Call α} {w : Workspace} {ok : α → Workspace → Prop}
    {error : Failure → Workspace → Prop} :
    (call x).Ends w ok error ↔
      x.Ends w.tree (fun a t => ok a { w with tree := t })
        (fun e t => error (.call e) { w with tree := t }) := by
  unfold EStateM.Ends call
  cases x w.tree <;> rfl

/-- A temporary file of the commit. It was not there before, and no change is made at its path or below
it. -/
structure Tracked (t₀ : FileTree) (dests : List Path) (kind : TempKind) (temp : Path) : Prop where
  name : ∃ dir n, temp = dir ++ [tempName kind n]
  plain : Path.Plain temp
  absent : t₀.get? temp = none
  apart : ∀ p ∈ dests, ¬temp <+: p

namespace Tracked

variable {t₀ : FileTree} {dests : List Path} {kind kind' : TempKind} {temp : Path}

theorem isTemp (h : Tracked t₀ dests kind temp) : IsTemp temp := by
  obtain ⟨dir, n, he⟩ := h.name
  exact ⟨dir, kind, n, he⟩

theorem kind_eq (h : Tracked t₀ dests kind temp) (h' : Tracked t₀ dests kind' temp) :
    kind = kind' := by
  obtain ⟨dir, n, rfl⟩ := h.name
  obtain ⟨dir', n', he⟩ := h'.name
  exact kind_eq_of_concat he

theorem ne_dest (h : Tracked t₀ dests kind temp) {p : Path} (hp : p ∈ dests) : temp ≠ p := by
  rintro rfl
  exact h.apart temp hp (List.prefix_refl temp)

end Tracked

/-- What a change does that is promoted. -/
inductive Promotes (w : Workspace) (c : Target) : Workspace → Prop
  | write {temp : Path} {b : ByteArray} {t : FileTree} (ha : c.Writes)
      (hm : c.action = .modify → w.tree.has c.dest = true) (hs : w.staged.lookup c.dest = some temp)
      (ht : w.tree.Moved temp c.dest b t) :
      Promotes w c { w with tree := t, staged := w.staged.remove c.dest }
  | remove {b : ByteArray} (ha : c.action = .delete) (hf : c.change.former ≠ none)
      (hr : w.tree.Reaches c.dest) (hb : w.tree.get? c.dest = some (.file b)) :
      Promotes w c { w with tree := w.tree.erase c.dest }
  | setAside {temp : Path} {b : ByteArray} {t : FileTree} (ha : c.action = .delete)
      (hf : c.change.former = none) (hroom : w.tree.Drawable w.reserved .setAside c.dest.parent)
      (hd : w.tree.Drawn w.reserved .setAside temp)
      (ht : (w.tree.put temp (.file .empty)).Moved c.dest temp b t) (htemp : temp.parent = c.dest.parent) :
      Promotes w c { w with tree := t, trash := w.trash.set c.dest temp }
  /-- There is nothing to delete. -/
  | idle (ha : c.action = .delete) (hn : w.tree.has c.dest = false) : Promotes w c w

/-- Nothing keeps a change from being promoted. -/
inductive Promotable (w : Workspace) (c : Target) : Prop
  | write {temp : Path} {b : ByteArray} (ha : c.Writes)
      (hm : c.action = .modify → w.tree.has c.dest = true) (hs : w.staged.lookup c.dest = some temp)
      (hb : w.tree.get? temp = some (.file b)) (ht : w.tree.Reaches temp) (hr : w.tree.Reaches c.dest)
      (hfree : w.tree.get? c.dest ≠ some .dir)
  | remove {b : ByteArray} (ha : c.action = .delete) (hf : c.change.former ≠ none)
      (hb : w.tree.get? c.dest = some (.file b)) (hr : w.tree.Reaches c.dest)
  | setAside {b : ByteArray} (ha : c.action = .delete) (hf : c.change.former = none)
      (hb : w.tree.get? c.dest = some (.file b)) (hr : w.tree.Reaches c.dest)
      (hd : w.tree.Drawable w.reserved .setAside c.dest.parent)
  | idle (ha : c.action = .delete) (hn : w.tree.has c.dest = false)

/-- What a change leaves that fails to be promoted. -/
inductive Halts (w : Workspace) (c : Target) : Workspace → Prop
  | same : Halts w c w
  | unstaged : Halts w c { w with staged := w.staged.remove c.dest }
  | drawn {temp : Path} (hd : w.tree.Drawn w.reserved .setAside temp) (hholds : w.tree.Holds temp) :
      Halts w c { w with tree := w.tree.put temp (.file .empty) }

variable {w : Workspace} {c : Target}

section Steps

variable (hl : w.tree.LinkFree) (hp : Path.Plain c.dest) (hr : ∀ n ∈ c.dest, n ∈ w.reserved)
  (htemp : ∀ temp, w.staged.lookup c.dest = some temp → Path.Plain temp ∧ temp ≠ c.dest)

include hl hp hr in
theorem setAside_steps (ha : c.action = .delete) (hf : c.change.former = none)
    (hhas : w.tree.has c.dest = true) :
    (setAside c.dest).Ends w (fun _ w' => Promotes w c w')
      (fun _ w' => Halts w c w' ∧ ¬Promotable w c) := by
  simp only [setAside, ends_bind, ends_get, ends_call]
  apply (makeTemp_draws hl hp.parent _ _ _).mono
  · rintro temp _ ⟨hroom, hd, htemp, rfl⟩
    have ht := hroom.reaches_drawn hd htemp
    have hlinks := hl.put (e := .file .empty) (ne_nil_of_get? hd.free (by simp)) (by simp)
    have hdirs := get?_dir_put (e := .file .empty) (by simp [hd.free] : w.tree.get? temp ≠ some .dir)
    apply (rename_moves hlinks hp hd.plain (hd.ne hr)).mono
    · rintro _ t ⟨b, hmoved⟩
      exact .setAside ha hf hroom hd hmoved htemp
    · rintro _ _ ⟨rfl, hnot⟩
      refine ⟨.drawn hd ht.2.2, fun h => ?_⟩
      cases h with
      | write hw => exact hw ha
      | remove _ hf' => exact hf' hf
      | @setAside b _ _ hb hreach =>
        refine hnot ⟨hreach.mono hdirs, ht.mono hdirs, ⟨b, ?_⟩, ?_⟩
        · rw [hd.get?_put_of_ne (hd.ne hr), hb]
        · rw [hd.get?_put_self]
          simp
      | idle _ hn => simp [hhas] at hn
  · rintro _ _ ⟨rfl, hnot⟩
    refine ⟨.same, fun h => ?_⟩
    cases h with
    | write hw => exact hw ha
    | remove _ hf' => exact hf' hf
    | setAside _ _ _ _ hroom => exact hnot hroom
    | idle _ hn => simp [hhas] at hn

include hl hp hr in
theorem promoteDelete_steps (ha : c.action = .delete) :
    (promoteDelete c).Ends w (fun _ w' => Promotes w c w')
      (fun _ w' => Halts w c w' ∧ ¬Promotable w c) := by
  simp only [promoteDelete, ends_bind, ends_get]
  split
  · next hhas =>
    cases hf : c.change.former with
    | some former =>
      simp only [Option.isSome_some, if_true, ends_call]
      apply (removeFile_ends hl hp).mono
      · rintro _ _ ⟨rfl, hreach, b, hb⟩
        exact .remove ha (by simp [hf]) hreach hb
      · rintro _ _ ⟨rfl, hnot⟩
        refine ⟨.same, fun h => ?_⟩
        cases h with
        | write hw => exact hw ha
        | remove _ _ hb hreach => exact hnot ⟨hreach, _, hb⟩
        | setAside _ hf' => simp [hf] at hf'
        | idle _ hn => simp [hhas] at hn
    | none => exact setAside_steps hl hp hr ha hf hhas
  · next hn => exact .idle ha (Bool.eq_false_iff.2 hn)

include hl hp htemp in
theorem promoteWrite_steps (ha : c.Writes) :
    (promoteWrite none c).Ends w (fun _ w' => Promotes w c w')
      (fun _ w' => Halts w c w' ∧ ¬Promotable w c) := by
  -- A change that writes a file has only one way to be promoted.
  have honly (h : Promotable w c) : (c.action = .modify → w.tree.has c.dest = true) ∧
      ∃ temp b, w.staged.lookup c.dest = some temp ∧ w.tree.get? temp = some (.file b) ∧
        w.tree.Reaches temp ∧ w.tree.Reaches c.dest ∧ w.tree.get? c.dest ≠ some .dir := by
    cases h with
    | write _ hm hs hb ht hr hfree => exact ⟨hm, _, _, hs, hb, ht, hr, hfree⟩
    | remove ha' => exact absurd ha' ha
    | setAside ha' => exact absurd ha' ha
    | idle ha' => exact absurd ha' ha
  simp only [promoteWrite, ends_bind, ends_get]
  split
  · next hm =>
    refine ⟨.same, fun h => ?_⟩
    have hhas := (honly h).1 hm.1
    simp [hhas] at hm
  · next hm =>
    split
    · next hs =>
      refine ⟨.same, fun h => ?_⟩
      obtain ⟨-, temp, b, hs', -⟩ := honly h
      rw [hs] at hs'
      cases hs'
    · next temp hs =>
      obtain ⟨hplain, hne⟩ := htemp temp hs
      simp only [ends_bind, ends_set, ends_call]
      apply (rename_moves hl hplain hp hne).mono
      · intro _ t h
        obtain ⟨b, ht⟩ := h
        refine .write ha (fun hmodify => ?_) hs ht
        simpa [hmodify] using hm
      · rintro _ _ ⟨rfl, hnot⟩
        refine ⟨.unstaged, fun h => ?_⟩
        obtain ⟨-, temp', b, hs', hb, ht, hreach, hfree⟩ := honly h
        rw [hs] at hs'
        cases hs'
        exact hnot ⟨ht, hreach, ⟨b, hb⟩, hfree⟩

include hl hp hr htemp in
theorem promote_steps (failed : List Text) :
    (Workspace.promote none failed c).Ends w
      (fun _ w' => c.path ∈ failed ∧ w' = w ∨
        c.path ∉ failed ∧ ∃ v, Promotes w c v ∧ w' = { v with promoted := v.promoted ++ [c] })
      (fun _ w' => Halts w c w' ∧ ¬Promotable w c) := by
  unfold Workspace.promote
  split
  · next hfailed => exact .inl ⟨List.contains_iff_mem.1 hfailed, rfl⟩
  · next hfailed =>
    have hfailed : c.path ∉ failed := mt List.contains_iff_mem.2 hfailed
    split
    · next ha =>
      rw [ends_bind]
      apply (promoteDelete_steps hl hp hr ha).mono
      · exact fun _ v h => .inr ⟨hfailed, v, h, rfl⟩
      · exact fun _ _ h => h
    · next ha =>
      rw [ends_bind]
      apply (promoteWrite_steps hl hp htemp ha).mono
      · exact fun _ v h => .inr ⟨hfailed, v, h, rfl⟩
      · exact fun _ _ h => h

end Steps

end Workspace

end Emend
