import Mathlib.Data.List.Nodup
import Emend.Proofs.Apply.Success

namespace Emend

open FileTree

/-- The file that a path names from the base on, with all links resolved. -/
def FileTree.realFile (t : FileTree) (base : RealPath) (path : Text) : Except Abort RealPath :=
  t.realPath (base.path ++ (Path.pieces path).filter (· ≠ []))

/-- No link is on the way of the path: if it can be resolved, it is its own real path. -/
def FileTree.Unlinked (t : FileTree) (base : RealPath) (path : Text) : Prop :=
  ∀ r, t.realFile base path = .ok r → r = ⟨base.path.walk (Path.pieces path), false⟩

/-- Two paths name one file, and that can be told without looking at links: they lead to one place as
they are written, or no link is on them and they are resolved to one path. -/
def FileTree.Collide (t : FileTree) (base : RealPath) (path path' : Text) : Prop :=
  base.resolve? path = base.resolve? path' ∨
    (∃ r, t.realFile base path = .ok r ∧ t.realFile base path' = .ok r) ∧
      t.Unlinked base path ∧ t.Unlinked base path'

namespace FileTree

variable {t : FileTree} {base : RealPath} {path path' : Text}

theorem LinkFree.unlinked (hl : t.LinkFree) (hb : Path.Plain base.path) (path : Text) :
    t.Unlinked base path := by
  intro r hr
  rw [realPath_eq_ok hl hr, Path.walk_append, hb.walk_eq, List.nil_append, Path.walk_filter]

theorem Collide.resolve?_eq (h : t.Collide base path path') :
    base.resolve? path = base.resolve? path' := by
  obtain h | ⟨⟨r, hr, hr'⟩, hu, hu'⟩ := h
  · exact h
  · obtain rfl := hu r hr
    have hwalk : base.path.walk (Path.pieces path) = base.path.walk (Path.pieces path') :=
      congrArg RealPath.path (hu' _ hr')
    unfold RealPath.resolve? Path.resolve?
    rw [hwalk]

end FileTree

section Apart

variable {t : FileTree} {base : RealPath} {rules : Option Rules} {op : Operation} {e : Effect}
  {ops : List Operation} {es : List Effect}

theorem Operation.Works.map_paths (h : op.Works t base rules e) :
    op.paths.map base.resolve? = e.places.map some := by
  cases h with
  | add hp => simp [paths, Operation.path, moveTo?, Draft.guarded_eq_ok hp]
  | delete hp => simp [paths, Operation.path, moveTo?, Draft.guarded_eq_ok hp]
  | update hp => simp [paths, Operation.path, moveTo?, Draft.guarded_eq_ok hp]
  | move hp _ _ hdest =>
    simp [paths, Operation.path, moveTo?, Draft.guarded_eq_ok hp, Draft.guarded_eq_ok hdest]

theorem Draft.map_paths (hall : List.Forall₂ (Operation.Works t base rules) ops es) :
    (ops.flatMap Operation.paths).map base.resolve? = (es.flatMap Effect.places).map some := by
  induction hall with
  | nil => rfl
  | cons hw _ ih => simp only [List.flatMap_cons, List.map_append, hw.map_paths, ih]

/-- A patch is worked out only if all its paths lead to places of their own. -/
theorem Draft.ofPatch_apart {respectRules : Bool} {patch : Text} {d : Draft}
    (hops : Envelope.read patch = .ok ops) (h : ofPatch t base respectRules patch {} = .ok () d) :
    ((ops.flatMap Operation.paths).map base.resolve?).Nodup := by
  obtain ⟨rules, ops', es, -, hread, hall, hd⟩ := (ofPatch_works t base respectRules patch).of_ok h
  rw [hops] at hread
  obtain rfl := Except.ok.inj hread
  rw [map_paths hall]
  exact List.Pairwise.map _ (fun p q hne he => hne (Option.some.inj he)) hd.apart

end Apart

namespace Applied

variable {t : FileTree} {base : RealPath} {patch : Text} {ops : List Operation}

/-- A patch in which two paths lead to one place is refused, and the tree stays as it is. -/
theorem ofPatchAt_refuses (hops : Envelope.read patch = .ok ops)
    (hdup : ¬((ops.flatMap Operation.paths).map base.resolve?).Nodup) (options : Options)
    (respectRules : Bool) :
    let applied := ofPatchAt t base patch options respectRules
    (∃ e, applied.outcome = .error e) ∧ applied.tree = t := by
  intro applied
  unfold applied ofPatchAt
  cases hdraft : Draft.ofPatch t base respectRules patch {} with
  | error e d => exact ⟨⟨e, rfl⟩, rfl⟩
  | ok u d => exact absurd (Draft.ofPatch_apart hops hdraft) hdup

/-- If two paths of a patch name one file, and that can be told without looking at links, the patch is
refused before anything is written. In a tree without links that takes in all spellings of one file, so
no operation undoes what another one did: if no failure is reported, each operation has come to what it
says of the tree as it was. -/
theorem ofPatch_once (names : List Name) (options : Options) (respectRules : Bool)
    (hbase : t.realPath names = .ok base) (hops : Envelope.read patch = .ok ops) :
    let applied := ofPatch t names patch options respectRules
    let paths := ops.flatMap Operation.paths
    (∀ (i j : Nat) (path path' : Text), i < j → paths[i]? = some path → paths[j]? = some path' →
        t.Collide base path path' → (∃ e, applied.outcome = .error e) ∧ applied.tree = t) ∧
      (t.LinkFree → (∀ path path' r, t.realFile base path = .ok r → t.realFile base path' = .ok r →
          t.Collide base path path') ∧
        (t.Rooted → options.dryRun = false → options.backupExt = none →
          ∀ s, applied.outcome = .ok s → s.failed = [] →
            ∀ op ∈ ops, op.Done t base s.fuzz applied.tree)) := by
  intro applied paths
  have happlied : applied = ofPatchAt t base patch options respectRules := ofPatch_eq_ofPatchAt hbase
  refine ⟨fun i j path path' hij hi hj hcollide => ?_, fun hl => ?_⟩
  · rw [happlied]
    refine ofPatchAt_refuses hops (fun hnodup => ?_) options respectRules
    have hsame : (paths.map base.resolve?)[i]? = (paths.map base.resolve?)[j]? := by
      rw [List.getElem?_map, List.getElem?_map, hi, hj, Option.map_some, Option.map_some,
        hcollide.resolve?_eq]
    have hlt : j < (paths.map base.resolve?).length := by
      rw [List.length_map]
      exact (List.getElem?_eq_some_iff.1 hj).1
    exact List.nodup_iff_getElem?_ne_getElem?.1 hnodup i j hij hlt hsame
  · obtain rfl := realPath_eq_ok hl hbase
    have hb := Path.plain_nil.walk names
    constructor
    · exact fun path path' r hr hr' =>
        .inr ⟨⟨r, hr, hr'⟩, hl.unlinked hb path, hl.unlinked hb path'⟩
    intro hroot hdry hbackup s hs hf op hop
    rw [happlied] at hs ⊢
    obtain ⟨policy, rules, ops', es, d, targets, -, -, -, hread, hw, hm, -, -, hfuzz⟩ :=
      ofPatchAt_makes hl hroot hdry hbackup hb hs hf
    rw [hops] at hread
    obtain rfl := Except.ok.inj hread
    exact hw.done hl hb (Envelope.read_body hops) hm hfuzz hop

theorem ofPatch_once_spellings :
    let t := (FileTree.empty.put ["d".toList] .dir).put ["d".toList, "a".toList] (.file "x\n".toUTF8)
    let patch := Text.ofLines <| List.map String.toList ["*** Begin Patch", "*** Update File: d//a",
      "-x", "+y", "*** Add File: n", "+x", "*** Update File: n/../d/./a", "-x", "+z", "*** End Patch"]
    let ops := [.update "d//a".toList ["-x".toList, "+y".toList] none,
      .add "n".toList ["+x".toList],
      .update "n/../d/./a".toList ["-x".toList, "+z".toList] none]
    let applied := ofPatch t [] patch { policy := some .bestEffort, atomic := false } false
    Envelope.read patch = .ok ops ∧
      (∃ e, applied.outcome = .error e) ∧ applied.tree = t := by
  intro t patch ops applied
  have hops : Envelope.read patch = .ok ops := by decide +kernel
  have hbase : t.realPath [] = .ok ⟨[], false⟩ := by decide +kernel
  have hcollide : t.Collide ⟨[], false⟩ "d//a".toList "n/../d/./a".toList := .inl (by decide +kernel)
  obtain ⟨hrefused, -⟩ :=
    ofPatch_once [] { policy := some .bestEffort, atomic := false } false hbase hops
  exact ⟨hops, hrefused 0 2 _ _ (by decide) rfl rfl hcollide⟩

/-- The one path is a link to the other, and both updates are reported as made. -/
theorem not_ofPatch_once_link :
    ¬∀ (t : FileTree) (base : RealPath) (patch : Text) (ops : List Operation) (options : Options),
      t.realPath [] = .ok base → Envelope.read patch = .ok ops →
        ∀ (i j : Nat) (path path' : Text) (r : RealPath), i < j →
          (ops.flatMap Operation.paths)[i]? = some path → (ops.flatMap Operation.paths)[j]? = some path' →
          t.realFile base path = .ok r → t.realFile base path' = .ok r →
            ∃ e, (ofPatch t [] patch options false).outcome = .error e := by
  intro hall
  let t := (FileTree.empty.put ["a".toList] (.file "x\ny\n".toUTF8)).put ["b".toList] (.link "a".toList)
  let patch := Text.ofLines <| List.map String.toList ["*** Begin Patch", "*** Update File: a",
    "-x", "+X", "*** Update File: b", "-y", "+Y", "*** End Patch"]
  let ops := [Operation.update "a".toList ["-x".toList, "+X".toList] none,
    .update "b".toList ["-y".toList, "+Y".toList] none]
  obtain ⟨e, he⟩ := hall t ⟨[], false⟩ patch ops { policy := some .bestEffort, atomic := false }
    (by decide +kernel) (by decide +kernel) 0 1 "a".toList "b".toList ⟨["a".toList], false⟩ (by decide)
    rfl rfl (by decide +kernel) (by decide +kernel)
  have hok : (ofPatch t [] patch { policy := some .bestEffort, atomic := false } false).outcome.map
      Summary.success = .ok ["a".toList, "b".toList] := by decide +kernel
  rw [he] at hok
  cases hok

end Applied

end Emend
