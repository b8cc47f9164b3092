import Emend.Proofs.Commit.Atomic
import Emend.Proofs.Draft
import Emend.Proofs.Except

namespace Emend

open FileTree

namespace Applied

variable {t : FileTree} {s : Summary}

theorem ofPatchAt_restores (hl : t.LinkFree) (hroot : t.Rooted) {base : Path}
    (hb : Path.Plain base) {patch : Text} {respectRules : Bool} {options : Options}
    (hpolicy : options.policy = some .failFast) (hatomic : options.atomic = true)
    (hdry : options.dryRun = false) (hbackup : options.backupExt = none)
    (hs : (ofPatchAt t ⟨base, false⟩ patch options respectRules).outcome = .ok s)
    (hf : s.failed ≠ []) :
    s.success = [] ∧
      ∀ p, t.KeptAt (ofPatchAt t ⟨base, false⟩ patch options respectRules).tree p := by
  obtain ⟨d, policy, made, hd, hpolicy', hmade, rfl, htree⟩ := ofPatchAt_eq_ok hs
  obtain rfl : policy = .failFast := Option.some.inj (hpolicy'.symm.trans hpolicy)
  have hagree : ∀ r targets, t.realPath base = .ok r →
      d.changes.map (Change.resolve t r) = targets.map .ok →
      Target.AgreeInTurn t.file? [] (Commit.promotions t targets) := by
    intro r targets hr hresolve
    obtain rfl := realPath_eq_ok hl hr
    rw [hb.walk_eq, List.nil_append] at hresolve
    have hplanned := (Draft.ofPatch_planned hd).targets hl hb hresolve
    exact hplanned.agreeInTurn.of_isPrefix (Commit.promotions_isPrefix t targets)
  obtain ⟨hsuccess, hkept⟩ := Commit.run_restores hatomic hbackup hl hroot hagree hmade hf
  rw [htree]
  exact ⟨hsuccess hdry, hkept⟩

/-- If the atomic commit of a patch stops at a failure, nothing is reported as done and all that was in
the tree is in it as it was. Directories may have been added, and temporary files. -/
theorem ofPatch_restores (hl : t.LinkFree) (hroot : t.Rooted) (names : List Name) (patch : Text)
    (respectRules : Bool) :
    let applied := ofPatch t names patch { policy := some .failFast, atomic := true } respectRules
    applied.outcome = .ok s → s.failed ≠ [] →
      s.success = [] ∧
      (∀ p e, t.get? p = some e → applied.tree.get? p = some e) ∧
      ∀ p e, applied.tree.get? p = some e →
        t.get? p = some e ∨ e = .dir ∨ IsTemp p ∧ ∃ b, e = .file b := by
  intro applied hs hf
  have hkept : s.success = [] ∧ ∀ p, t.KeptAt applied.tree p := by
    obtain ⟨base, hr⟩ := realPath_of_ofPatch hs
    have happlied : applied = ofPatchAt t base patch _ respectRules := ofPatch_eq_ofPatchAt hr
    obtain rfl := realPath_eq_ok hl hr
    rw [happlied] at hs ⊢
    exact ofPatchAt_restores hl hroot (Path.plain_nil.walk names) rfl rfl rfl rfl hs hf
  exact ⟨hkept.1, fun p e => (hkept.2 p).get?_eq_some, fun p e => (hkept.2 p).eq_some_or⟩

/-- A file that is no text, a new one and a changed one are promoted before a file is to stand where a
directory had to be made. -/
theorem ofPatch_restores_mixed :
    let raw := FileTree.empty.put ["raw".toList] (.file ⟨#[0xff, 0x00]⟩)
    let t := raw.put ["a".toList] (.file "x\n".toUTF8)
    let patch := Text.ofLines <| List.map String.toList ["*** Begin Patch", "*** Add File: n", "+new",
      "*** Delete File: raw", "*** Update File: a", "@@", "-x", "+y", "*** Add File: d", "+file",
      "*** Add File: d/e", "+below", "*** End Patch"]
    let applied := ofPatch t [] patch { policy := some .failFast, atomic := true } false
    ∃ s, applied.outcome = .ok s ∧ s.failed = ["d".toList] ∧ s.success = [] ∧
      (∀ p e, t.get? p = some e → applied.tree.get? p = some e) ∧
      ∀ p e, applied.tree.get? p = some e →
        t.get? p = some e ∨ e = .dir ∨ IsTemp p ∧ ∃ b, e = .file b := by
  intro raw t patch applied
  have hlinks : t.LinkFree := (linkFree_empty.put (by simp) (by simp)).put (by simp) (by simp)
  have hroot : t.Rooted := by
    have hraw : raw.Rooted := rooted_empty.put (p := []) rfl (by decide)
    exact hraw.put (p := []) rfl (by decide)
  have hfailed : applied.outcome.map Summary.failed = .ok ["d".toList] := by decide +kernel
  obtain ⟨s, hs, hf⟩ := Except.map_eq_ok.1 hfailed
  have hne : s.failed ≠ [] := by
    rw [hf]
    exact nofun
  exact ⟨s, hs, hf, ofPatch_restores hlinks hroot [] patch false hs hne⟩

end Applied

end Emend
