import Emend.Proofs.Commit.Abort
import Emend.Proofs.Commit.Refinement
import Emend.Proofs.Draft

namespace Emend

/-- The patch can be read, each of its operations works by itself, and no two of them touch one place. -/
def Draft.Workable (t : FileTree) (base : RealPath) (respectRules : Bool) (patch : Text) : Prop :=
  ∃ rules ops es, Draft.Ruled t base respectRules rules ∧ Envelope.read patch = .ok ops ∧
    List.Forall₂ (Operation.Works t base rules) ops es ∧ (es.flatMap Effect.places).Nodup

namespace Applied

variable {t : FileTree} {base : RealPath} {names : List Name} {patch : Text} {options : Options}
  {respectRules : Bool}

theorem ofPatchAt_dry (hdry : options.dryRun = true) :
    (ofPatchAt t base patch options respectRules).tree = t := by
  unfold ofPatchAt
  cases Draft.ofPatch t base respectRules patch {} with
  | error e d => rfl
  | ok u d =>
    cases options.policy with
    | none => rfl
    | some policy =>
      have htree : (Commit.run t base.path d.changes policy options).tree = t := (Commit.run_dry hdry).1
      dsimp only
      split
      · exact htree
      · exact htree

theorem ofPatchAt_unworkable (h : ¬Draft.Workable t base respectRules patch) :
    let applied := ofPatchAt t base patch options respectRules
    (∃ e, applied.outcome = .error e) ∧ applied.tree = t := by
  intro applied
  unfold applied ofPatchAt
  cases hdraft : Draft.ofPatch t base respectRules patch {} with
  | error e d => exact ⟨⟨e, rfl⟩, rfl⟩
  | ok u d =>
    obtain ⟨rules, ops, es, hruled, hread, hall, hd⟩ :=
      (Draft.ofPatch_works t base respectRules patch).of_ok hdraft
    exact absurd ⟨rules, ops, es, hruled, hread, hall, hd.apart⟩ h

/-- A patch that is refused leaves the tree as it is, unless its commit was given up while it was under
way. -/
theorem ofPatchAt_refused {e : Refusal}
    (he : (ofPatchAt t base patch options respectRules).outcome = .error e) :
    (ofPatchAt t base patch options respectRules).tree = t ∨ ∃ d a, e = .aborted a ∧
      Draft.ofPatch t base respectRules patch {} = .ok () d ∧
      Commit.Unfit t base.path d.changes options a := by
  revert he
  unfold ofPatchAt
  cases hdraft : Draft.ofPatch t base respectRules patch {} with
  | error e' d => exact fun _ => .inl rfl
  | ok u d =>
    dsimp only
    cases options.policy with
    | none => exact fun _ => .inl rfl
    | some policy =>
      dsimp only
      cases ha : (Commit.run t base.path d.changes policy options).outcome with
      | ok s => exact nofun
      | error a =>
        intro he
        obtain rfl := Except.error.inj he
        exact (Commit.run_abort ha).imp_right fun hunfit => ⟨d, a, rfl, rfl, hunfit⟩

/-- A dry run has no effect, and neither has a patch of which an operation cannot be read, does not work by
itself or touches the place of another one. Whatever else a patch is refused for, the tree is as it was,
unless the commit was given up for one of the changes: for a null character on the way to its place or to
its backup, or for too many directories above it. -/
theorem ofPatch_untouched (t : FileTree) (names : List Name) (patch : Text) (options : Options)
    (respectRules : Bool) :
    let applied := ofPatch t names patch options respectRules
    (options.dryRun = true → applied.tree = t) ∧
      (∀ base, t.realPath names = .ok base → ¬Draft.Workable t base respectRules patch →
        (∃ e, applied.outcome = .error e) ∧ applied.tree = t) ∧
      ∀ e, applied.outcome = .error e → applied.tree = t ∨ ∃ base d a, e = .aborted a ∧
        t.realPath names = .ok base ∧ Draft.ofPatch t base respectRules patch {} = .ok () d ∧
        Commit.Unfit t base.path d.changes options a := by
  intro applied
  unfold applied ofPatch
  cases hbase : t.realPath names with
  | error a => exact ⟨fun _ => rfl, nofun, fun _ _ => .inl rfl⟩
  | ok base =>
    refine ⟨ofPatchAt_dry, fun base' hb hnot => ?_, fun e he => ?_⟩
    · obtain rfl := Except.ok.inj hb
      exact ofPatchAt_unworkable hnot
    · exact (ofPatchAt_refused he).imp_right fun ⟨d, a, h, hdraft, hunfit⟩ =>
        ⟨base, d, a, h, rfl, hdraft, hunfit⟩

/-- The first operation works, the second one names a file that is not there; and a dry run of the first one
alone. -/
theorem ofPatch_untouched_second :
    let t := FileTree.empty.put ["a".toList] (.file "x\n".toUTF8)
    let patch := Text.ofLines <| List.map String.toList ["*** Begin Patch", "*** Update File: a", "-x",
      "+y", "*** Delete File: b", "*** End Patch"]
    let first := Text.ofLines <| List.map String.toList ["*** Begin Patch", "*** Update File: a", "-x",
      "+y", "*** End Patch"]
    let options : Options := { policy := some .bestEffort, atomic := false }
    let refused := ofPatch t [] patch options false
    let dry := ofPatch t [] first { options with dryRun := true } false
    refused.outcome = .error (.notFound "b".toList) ∧ refused.tree = t ∧
      dry.outcome.map Summary.success = .ok ["DRY RUN: Would modify file a (2 bytes)".toList] ∧
      dry.tree = t := by
  intro t patch first options refused dry
  have he : refused.outcome = .error (.notFound "b".toList) := by decide +kernel
  obtain ⟨-, -, hraised⟩ := ofPatch_untouched t [] patch options false
  obtain ⟨hdry, -⟩ := ofPatch_untouched t [] first { options with dryRun := true } false
  refine ⟨he, ?_, by decide +kernel, hdry rfl⟩
  obtain htree | ⟨-, -, a, ha, -⟩ := hraised _ he
  · exact htree
  · cases ha

/-- A null character on the second path is found only when the first file has been made. -/
theorem not_ofPatch_untouched_null :
    ¬∀ (t : FileTree) (names : List Name) (patch : Text) (options : Options) (respectRules : Bool)
      (e : Refusal), (ofPatch t names patch options respectRules).outcome = .error e →
        (ofPatch t names patch options respectRules).tree = t := by
  intro hall
  let patch := Text.ofLines <| List.map String.toList ["*** Begin Patch", "*** Add File: a", "+x",
    "*** Add File: b\x00", "+y", "*** End Patch"]
  let options : Options := { policy := some .failFast, atomic := true }
  have htree := hall .empty [] patch options false (.aborted .nullCharacter) (by decide +kernel)
  have hmade : (ofPatch .empty [] patch options false).tree.get? ["a".toList] =
    some (.file "x".toUTF8) := by decide +kernel
  rw [htree] at hmade
  cases hmade

end Applied

end Emend
