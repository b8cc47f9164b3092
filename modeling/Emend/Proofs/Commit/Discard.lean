import Emend.Commit.Atomic
import Emend.Proofs.FileTree.Call

namespace Emend

open EStateM FileTree

namespace Workspace

variable {t : FileTree} {w : Workspace} {temp : Path} {temps : List Path}

theorem discardFile_cases (hl : t.LinkFree) (hp : Path.Plain temp) :
    discardFile t temp = t ∨ discardFile t temp = t.erase temp ∧ t.get? temp ≠ some .dir := by
  unfold discardFile
  split
  · have hremove := removeFile_ends hl hp
    split
    · next t' hok =>
      obtain ⟨rfl, -, b, hb⟩ := hremove.of_ok hok
      exact .inr ⟨rfl, ne_dir_of_get? hb⟩
    · next t' herror =>
      obtain ⟨rfl, -⟩ := hremove.of_error herror
      exact .inl rfl
  · exact .inl rfl

theorem linkFree_discardFile (hl : t.LinkFree) (hp : Path.Plain temp) :
    (discardFile t temp).LinkFree := by
  obtain he | ⟨he, hdir⟩ := discardFile_cases hl hp
  · rw [he]
    exact hl
  · rw [he]
    exact hl.erase (ne_nil_of_get? rfl hdir)

theorem rooted_discardFile (hl : t.LinkFree) (hp : Path.Plain temp) (hroot : t.Rooted) :
    (discardFile t temp).Rooted := by
  obtain he | ⟨he, hdir⟩ := discardFile_cases hl hp
  · rw [he]
    exact hroot
  · rw [he]
    exact hroot.erase hdir

section All

variable (hl : t.LinkFree) (htemps : ∀ temp ∈ temps, Path.Plain temp)
include hl htemps

theorem linkFree_foldl_discardFile : (temps.foldl discardFile t).LinkFree := by
  induction temps generalizing t with
  | nil => exact hl
  | cons temp temps ih =>
    obtain ⟨hp, htemps⟩ := List.forall_mem_cons.1 htemps
    exact ih (linkFree_discardFile hl hp) htemps

theorem rooted_foldl_discardFile (hroot : t.Rooted) : (temps.foldl discardFile t).Rooted := by
  induction temps generalizing t with
  | nil => exact hroot
  | cons temp temps ih =>
    obtain ⟨hp, htemps⟩ := List.forall_mem_cons.1 htemps
    exact ih (linkFree_discardFile hl hp) htemps (rooted_discardFile hl hp hroot)

theorem foldl_discardFile_cases (p : Path) :
    (temps.foldl discardFile t).get? p = t.get? p ∨
      p ∈ temps ∧ (temps.foldl discardFile t).get? p = none := by
  induction temps generalizing t with
  | nil => exact .inl rfl
  | cons temp temps ih =>
    obtain ⟨hp, htemps⟩ := List.forall_mem_cons.1 htemps
    obtain hsame | ⟨hmem, hn⟩ := ih (linkFree_discardFile hl hp) htemps
    · rw [List.foldl_cons, hsame]
      obtain he | ⟨he, hdir⟩ := discardFile_cases hl hp
      · exact .inl (by rw [he])
      · rw [he, get?_erase t (ne_nil_of_get? rfl hdir)]
        split
        · next hpt => exact .inr ⟨hpt ▸ List.mem_cons_self, rfl⟩
        · exact .inl rfl
    · exact .inr ⟨List.mem_cons_of_mem _ hmem, hn⟩

end All

section Tracked

variable (hl : w.tree.LinkFree) (htemps : ∀ x ∈ w.staged ++ w.trash, Path.Plain x.2)
include htemps

private theorem plain_temps : ∀ temp ∈ (w.staged ++ w.trash).map (·.2), Path.Plain temp := by
  intro temp htemp
  obtain ⟨x, hx, rfl⟩ := List.mem_map.1 htemp
  exact htemps x hx

include hl

theorem linkFree_discard : w.discard.LinkFree := linkFree_foldl_discardFile hl (plain_temps htemps)

theorem rooted_discard (hroot : w.tree.Rooted) : w.discard.Rooted :=
  rooted_foldl_discardFile hl (plain_temps htemps) hroot

/-- Nothing but the files that the workspace keeps track of is gone. -/
theorem discard_cases (p : Path) :
    w.discard.get? p = w.tree.get? p ∨
      (∃ x ∈ w.staged ++ w.trash, x.2 = p) ∧ w.discard.get? p = none :=
  (foldl_discardFile_cases hl (plain_temps htemps) p).imp_right (And.imp_left List.mem_map.1)

end Tracked

theorem get?_discardFile (hl : t.LinkFree) (hp : Path.Plain temp) (hr : t.Reaches temp)
    (hb : t.get? temp = none ∨ ∃ b, t.get? temp = some (.file b)) (p : Path) :
    (discardFile t temp).get? p = if p = temp then none else t.get? p := by
  unfold discardFile
  split
  · next hhas =>
    obtain ⟨-, -, hsome⟩ := (has_iff hl hp).1 hhas
    obtain ⟨b, hb⟩ := hb.resolve_left (Option.isSome_iff_ne_none.1 hsome)
    have hremove := removeFile_ends hl hp
    split
    · next t' hok =>
      obtain ⟨rfl, -⟩ := hremove.of_ok hok
      exact get?_erase t (ne_nil_of_get? hb nofun) p
    · next e t' herror =>
      obtain ⟨-, hnot⟩ := hremove.of_error herror
      exact absurd ⟨hr, b, hb⟩ hnot
  · next hhas =>
    have hn : t.get? temp = none := hb.resolve_right fun ⟨b, hb⟩ => hhas (hr.has hl hp (by simp [hb]))
    split
    · next he => rw [he, hn]
    · rfl

theorem get?_foldl_discardFile (hl : t.LinkFree)
    (htemps : ∀ temp ∈ temps, Path.Plain temp ∧ t.Reaches temp ∧
      (t.get? temp = none ∨ ∃ b, t.get? temp = some (.file b))) (p : Path) :
    (temps.foldl discardFile t).get? p = if p ∈ temps then none else t.get? p := by
  induction temps generalizing t with
  | nil => simp
  | cons temp temps ih =>
    obtain ⟨⟨hp, hr, hb⟩, htemps⟩ := List.forall_mem_cons.1 htemps
    have hget := get?_discardFile hl hp hr hb
    rw [List.foldl_cons, ih (linkFree_discardFile hl hp), hget]
    · by_cases he : p = temp
      · simp [he]
      · simp [he]
    · intro temp' ht
      obtain ⟨hp', hr', hb'⟩ := htemps temp' ht
      have hdirs : ∀ q, t.get? q = some .dir → (discardFile t temp).get? q = some .dir := by
        intro q hq
        have hne : q ≠ temp := by
          rintro rfl
          simp [hq] at hb
        rw [hget, if_neg hne, hq]
      refine ⟨hp', hr'.mono hdirs, ?_⟩
      rw [hget]
      split
      · exact .inl rfl
      · exact hb'

end Workspace

end Emend
