import Emend.Commit
import Emend.Proofs.Commit.Steady

namespace Emend

open EStateM FileTree

/-- The changes have been made in the tree, and nothing else has. -/
structure Made (t : FileTree) (targets : List Target) (t' : FileTree) : Prop where
  fits : ∀ c ∈ targets, c.Writes → Fits c.dest
  written : ∀ c ∈ targets, c.Writes → t'.get? c.dest = some (.file c.bytes)
  removed : ∀ c ∈ targets, ¬c.Writes → Fits c.dest → ¬Target.Above targets c.dest →
    t'.get? c.dest = none
  opened : ∀ p, Target.Above targets p → t'.get? p = some .dir
  passable : ∀ p, Target.Above targets p → (∀ c ∈ targets, c.dest ≠ p) →
    t.get? p = none ∨ t.get? p = some .dir
  others : ∀ p, ¬Target.Above targets p → (∀ c ∈ targets, c.dest ≠ p) → t'.get? p = t.get? p

theorem made_nil (t : FileTree) : Made t [] t where
  fits := nofun
  written := nofun
  removed := nofun
  opened := by simp [Target.Above]
  passable := by simp [Target.Above]
  others _ _ _ := rfl

theorem Made.concat_delete {t₀ t t' : FileTree} {done : List Target} {c : Target}
    (h : Made t₀ done t) (ha : c.action = .delete) (hnew : ∀ c' ∈ done, c'.dest ≠ c.dest)
    (hdirs : ∀ p, t.get? p = some .dir → t'.get? p = some .dir)
    (hsame : ∀ p, p ≠ c.dest → t'.get? p = t.get? p) (hgone : Fits c.dest → t'.get? c.dest = none) :
    Made t₀ (done ++ [c]) t' := by
  have hnot : ¬c.Writes := fun hw => hw ha
  have hdone {p : Path} (hne : ∀ c' ∈ done ++ [c], c'.dest ≠ p) : ∀ c' ∈ done, c'.dest ≠ p :=
    fun c' hc' => hne c' (List.mem_append_left _ hc')
  constructor
  case fits => exact forall_writes_concat h.fits fun hw => absurd hw hnot
  case written =>
    apply forall_writes_concat
    · intro c' hc' hw'
      rw [hsame _ (hnew c' hc'), h.written c' hc' hw']
    · exact fun hw => absurd hw hnot
  case removed =>
    intro c' hc' hnot' hfits hfree
    rw [Target.above_concat_of_delete ha] at hfree
    obtain hc' | hc' := List.mem_append.1 hc'
    · rw [hsame _ (hnew c' hc'), h.removed c' hc' hnot' hfits hfree]
    · rw [List.mem_singleton.1 hc'] at hfits ⊢
      exact hgone hfits
  case opened => exact fun p hp => hdirs p (h.opened p ((Target.above_concat_of_delete ha).1 hp))
  case passable =>
    exact fun p hp hne => h.passable p ((Target.above_concat_of_delete ha).1 hp) (hdone hne)
  case others =>
    intro p hp hne
    rw [Target.above_concat_of_delete ha] at hp
    rw [hsame p (hne c (by simp)).symm, h.others p hp (hdone hne)]

namespace Direct

/-- What a change does that is made in place. -/
inductive Applies (t : FileTree) (c : Target) : FileTree → Prop
  | write {t' : FileTree} (ha : c.Writes) (ho : t.Opened c.dest.parent t') (hr : t'.Reaches c.dest)
      (hfree : t'.get? c.dest ≠ some .dir) : Applies t c (t'.put c.dest (.file c.bytes))
  | remove {b : ByteArray} (ha : c.action = .delete) (hr : t.Reaches c.dest)
      (hb : t.get? c.dest = some (.file b)) : Applies t c (t.erase c.dest)
  /-- There is nothing to delete. -/
  | idle (ha : c.action = .delete) (hn : t.has c.dest = false) : Applies t c t

/-- Nothing keeps a change from being made in place. -/
inductive Appliable (t : FileTree) (c : Target) : Prop
  | write (ha : c.Writes) (hlevels : t.levels c.dest.parent ≤ maxDepth)
      (hopen : t.Openable c.dest.parent) (hnull : Path.hasNull c.dest = false) (hfits : Fits c.dest)
      (hfree : t.get? c.dest ≠ some .dir)
  | remove {b : ByteArray} (ha : c.action = .delete) (hr : t.Reaches c.dest)
      (hb : t.get? c.dest = some (.file b))
  | idle (ha : c.action = .delete) (hn : t.has c.dest = false)

variable {t t' : FileTree} {c : Target} {done : List Target} {p : Path}

/-- A change is made in place, or it leaves at most directories. -/
theorem apply_steps (hl : t.LinkFree) (hp : Path.Plain c.dest) :
    (apply none c).Ends t (fun _ t' => Applies t c t')
      (fun _ t' => t.GrowsTo c.dest.parent t' ∧ (t.Rooted → t'.Rooted) ∧ ¬Appliable t c) := by
  simp only [apply, ends_bind, ends_get]
  split
  · next ha =>
    split
    · next hhas =>
      apply (removeFile_ends hl hp).mono
      · rintro _ _ ⟨rfl, hr, b, hb⟩
        exact .remove ha hr hb
      · rintro _ _ ⟨rfl, hnot⟩
        refine ⟨.refl _ _, id, fun h => ?_⟩
        cases h with
        | write hw => exact hw ha
        | remove _ hr hb => exact hnot ⟨hr, _, hb⟩
        | idle _ hn => simp [hhas] at hn
    · next hn => exact .idle ha (Bool.eq_false_iff.2 hn)
  · next ha =>
    simp only [ends_bind]
    apply (makeDirs_opens hl hp.parent).mono
    · intro _ t' ho
      apply (writeFile_ends (ho.grows.linkFree hl) hp _).mono
      · rintro _ _ ⟨rfl, hr, hfree⟩
        exact .write ha ho hr hfree
      · rintro _ _ ⟨rfl, hnot⟩
        refine ⟨ho.grows, ho.rooted, fun h => ?_⟩
        cases h with
        | write _ _ _ hnull hfits hfree =>
          have hnil : c.dest ≠ [] := ne_nil_of_get? rfl hfree
          refine hnot ⟨⟨hnull, hfits, fun q hq hne => ?_⟩, ?_⟩
          · exact ho.dirs q ((Path.eq_or_prefix_parent hq).resolve_left hne)
          · rwa [ho.grows.of_not_isPrefix (Path.not_isPrefix_parent hnil)]
        | remove ha' => exact ha ha'
        | idle ha' => exact ha ha'
    · rintro e _ ⟨hg, hroot, hreason⟩
      refine ⟨hg, hroot, fun h => ?_⟩
      cases h with
      | write _ hlevels hopen =>
        obtain ⟨-, hdeep⟩ | hnot := hreason
        · exact Nat.not_lt.2 hlevels hdeep
        · exact hnot hopen
      | remove ha' => exact ha ha'
      | idle ha' => exact ha ha'

namespace Applies

variable (ha : Applies t c t')
include ha

theorem linkFree (hl : t.LinkFree) : t'.LinkFree := by
  cases ha with
  | write ha ho hr hfree => exact (ho.grows.linkFree hl).put (ne_nil_of_get? rfl hfree) nofun
  | remove ha hr hb => exact hl.erase (ne_nil_of_get? hb nofun)
  | idle ha hn => exact hl

theorem rooted (hroot : t.Rooted) : t'.Rooted := by
  cases ha with
  | write ha ho hr hfree => exact (ho.rooted hroot).put_of_holds hr.2.2 hfree
  | remove ha hr hb => exact hroot.erase (ne_dir_of_get? hb)
  | idle ha hn => exact hroot

theorem get?_of_ne (hne : p ≠ c.dest) (hnot : ¬(c.Writes ∧ p <+: c.dest.parent)) :
    t'.get? p = t.get? p := by
  cases ha with
  | write ha ho hr hfree =>
    have habove : ¬p <+: c.dest.parent := fun hp => hnot ⟨ha, hp⟩
    rw [get?_put _ (ne_nil_of_get? rfl hfree), if_neg hne, ho.grows.of_not_isPrefix habove]
  | remove ha hr hb => rw [get?_erase _ (ne_nil_of_get? hb nofun), if_neg hne]
  | idle ha hn => rfl

theorem get?_above (hw : c.Writes) (hp : p <+: c.dest.parent) : t'.get? p = some .dir := by
  cases ha with
  | write ha ho hr hfree => exact get?_dir_put hfree p (ho.dirs p hp)
  | remove ha => exact absurd ha hw
  | idle ha => exact absurd ha hw

theorem get?_dest (hl : t.LinkFree) (hroot : t.Rooted) (hp : Path.Plain c.dest)
    (hfits : Fits c.dest) : t'.get? c.dest = c.made.map .file := by
  cases ha with
  | write ha ho hr hfree =>
    rw [get?_put _ (ne_nil_of_get? rfl hfree), if_pos rfl, Target.made, if_pos ha]
    rfl
  | remove ha hr hb =>
    have hnot : ¬c.Writes := fun hw => hw ha
    rw [get?_erase _ (ne_nil_of_get? hb (by simp)), if_pos rfl, Target.made, if_neg hnot]
    rfl
  | idle ha hn =>
    have hnot : ¬c.Writes := fun hw => hw ha
    rw [hroot.get?_eq_none hl hp hfits hn, Target.made, if_neg hnot]
    rfl

theorem file?_dest (hl : t.LinkFree) (hroot : t.Rooted) (hp : Path.Plain c.dest) :
    t'.file? c.dest = c.made := by
  apply Target.file?_eq_made (ha.linkFree hl) (ha.rooted hroot) hp
  · intro hw
    cases ha with
    | write _ _ hr => exact hr.2.1
    | remove ha => exact absurd ha hw
    | idle ha => exact absurd ha hw
  · exact ha.get?_dest hl hroot hp

theorem grownAt (hne : p ≠ c.dest) : t.GrownAt t' p := by
  cases ha with
  | @write t₁ ha ho hr hfree =>
    have hsame := (get?_put t₁ (ne_nil_of_get? rfl hfree) (.file c.bytes) p).trans (if_neg hne)
    exact (ho.grows.grownAt p).imp hsame.trans (And.imp_right hsame.trans)
  | remove ha hr hb => exact .inl ((get?_erase _ (ne_nil_of_get? hb nofun) p).trans (if_neg hne))
  | idle ha hn => exact .inl rfl

theorem eq_of_not_fits (hfits : ¬Fits c.dest) : t' = t := by
  cases ha with
  | write ha ho hr => exact absurd hr.2.1 hfits
  | remove ha hr => exact absurd hr.2.1 hfits
  | idle => rfl

/-- A change that is made after others at other places leaves what they have made. -/
theorem made {t₀ : FileTree} (h : Made t₀ done t) (hl : t.LinkFree) (hroot : t.Rooted)
    (hp : Path.Plain c.dest) (hnew : ∀ c' ∈ done, c'.dest ≠ c.dest) : Made t₀ (done ++ [c]) t' := by
  cases ha with
  | @write t₁ ha ho hr hfree =>
    have hput := get?_put t₁ (ne_nil_of_get? rfl hfree) (.file c.bytes)
    have habove {p : Path} : Target.Above (done ++ [c]) p ↔
        Target.Above done p ∨ p <+: c.dest.parent := by
      rw [Target.above_concat, and_iff_right ha]
    constructor
    case fits => exact forall_writes_concat h.fits fun _ => hr.2.1
    case written =>
      apply forall_writes_concat
      · intro c' hc' hw'
        rw [hput, if_neg (hnew c' hc'), ho.grows.get?_eq_some (h.written c' hc' hw')]
      · exact fun _ => by rw [hput, if_pos rfl]
    case removed =>
      intro c' hc' hnot hfits hfree'
      rw [habove, not_or] at hfree'
      obtain hc' | hc' := List.mem_append.1 hc'
      · rw [hput, if_neg (hnew c' hc'), ho.grows.of_not_isPrefix hfree'.2]
        exact h.removed c' hc' hnot hfits hfree'.1
      · exact absurd ha (List.mem_singleton.1 hc' ▸ hnot)
    case opened =>
      intro p hp'
      have hdir : t₁.get? p = some .dir := by
        obtain hp' | hp' := habove.1 hp'
        · exact ho.grows.get?_eq_some (h.opened p hp')
        · exact ho.dirs p hp'
      have hne : p ≠ c.dest := fun he => hfree (he ▸ hdir)
      rw [hput, if_neg hne, hdir]
    case passable =>
      intro p hp' hne
      have hdone : ∀ c' ∈ done, c'.dest ≠ p := fun c' hc' => hne c' (List.mem_append_left _ hc')
      by_cases hp'' : Target.Above done p
      · exact h.passable p hp'' hdone
      · rw [← h.others p hp'' hdone]
        exact ho.passable p ((habove.1 hp').resolve_left hp'')
    case others =>
      intro p hp' hne
      rw [habove, not_or] at hp'
      have hdone : ∀ c' ∈ done, c'.dest ≠ p := fun c' hc' => hne c' (List.mem_append_left _ hc')
      rw [hput, if_neg (hne c (by simp)).symm, ho.grows.of_not_isPrefix hp'.2, h.others p hp'.1 hdone]
  | @remove b ha hr hb =>
    have herase := get?_erase t (ne_nil_of_get? hb nofun)
    exact h.concat_delete ha hnew (get?_dir_erase (ne_dir_of_get? hb))
      (fun p hne => by rw [herase, if_neg hne]) fun _ => by rw [herase, if_pos rfl]
  | idle ha hn =>
    exact h.concat_delete ha hnew (fun _ hd => hd) (fun _ _ => rfl)
      fun hfits => hroot.get?_eq_none hl hp hfits hn

end Applies

end Direct

end Emend
