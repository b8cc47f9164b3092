import Emend.Commit
import Emend.Proofs.FileTree.Lookup

namespace Emend

variable {t : FileTree} {base : RealPath} {p : Path}

/-- The change agrees with what is at its place: a file is made where there is none, and of one that
is modified or deleted the text is known, unless it is deleted and has none. -/
inductive Target.Sound (t : FileTree) (c : Target) : Prop
  | create (ha : c.action = .create) (hn : t.has c.dest = false)
  | known {former : Text} (ha : c.action = .modify ∨ c.action = .delete)
      (hf : c.change.former = some former) (hfind : t.find c.dest = .ok (.file former.encode))
  | raw {b : ByteArray} (ha : c.action = .delete) (hf : c.change.former = none)
      (hfind : t.find c.dest = .ok (.file b))

/-- The changes agree with the tree, each at a place of its own. -/
structure Target.Planned (t : FileTree) (targets : List Target) : Prop where
  sound : ∀ c ∈ targets, c.Sound t
  plain : ∀ c ∈ targets, Path.Plain c.dest
  apart : targets.Pairwise fun c c' => c.dest ≠ c'.dest

/-- The changes agree with the tree where their paths lead from the base on, each to a place of its
own. -/
structure Change.Planned (t : FileTree) (base : RealPath) (changes : List Change) : Prop where
  sound : ∀ c ∈ changes, ∃ p, base.resolve? c.path = some p ∧ Target.Sound t ⟨c, p⟩
  apart : changes.Pairwise fun c c' => base.resolve? c.path ≠ base.resolve? c'.path

theorem RealPath.resolve?_eq_some {path : Text} (h : base.resolve? path = some p) :
    Path.resolve? base.path path = some p := by
  unfold resolve? at h
  split at h
  · cases h
  · exact h

namespace Change

/-- Where a change is made that is resolved: at the path as it stands, or at the one that is left when
all links are followed. -/
inductive Lands (t : FileTree) (base : RealPath) (c : Change) (p : Path) : Prop
  | made (ha : c.action = .create) (h : base.resolve? c.path = some p)
  | found {r : RealPath} (ha : c.action ≠ .create)
      (hr : t.realPath (base.path ++ (Path.pieces c.path).filter (· ≠ [])) = .ok r)
      (hw : base.Within r.path) (hp : r.path = p)

theorem resolve_cases {c : Change} {target : Target} (h : c.resolve t base = .ok target) :
    target = ⟨c, target.dest⟩ ∧ Lands t base c target.dest := by
  unfold resolve at h
  split at h
  · cases h
  · next ha =>
    split at h
    · next p hp =>
      obtain rfl := Except.ok.inj h
      exact ⟨rfl, .made ha hp⟩
    · cases h
  all_goals
    next ha =>
    split at h
    · cases h
    · cases h
    · next r hr =>
      split at h
      · next hw =>
        obtain rfl := Except.ok.inj h
        exact ⟨rfl, .found (by simp [ha]) hr hw rfl⟩
      · cases h

theorem resolve_eq_ok (hl : t.LinkFree) (hb : Path.Plain base.path) {c : Change} {target : Target}
    (h : c.resolve t base = .ok target) :
    target = ⟨c, target.dest⟩ ∧ base.resolve? c.path = some target.dest := by
  obtain ⟨hchange, hres⟩ := resolve_cases h
  refine ⟨hchange, ?_⟩
  cases hres with
  | made _ hp => exact hp
  | found _ hr hw hp =>
    rw [← hp]
    rw [FileTree.realPath_eq_ok hl hr, Path.walk_append, Path.walk_filter, hb.walk_eq,
      List.nil_append] at hw ⊢
    rw [RealPath.resolve?, hw.1]
    exact Path.resolve?_eq_some.2 ⟨hw.2, rfl⟩

theorem resolve_plain (hl : t.LinkFree) (hb : Path.Plain base.path) {c : Change} {target : Target}
    (h : c.resolve t base = .ok target) : Path.Plain target.dest :=
  hb.resolve? (RealPath.resolve?_eq_some (resolve_eq_ok hl hb h).2)

theorem change_resolve_all {changes : List Change} {targets : List Target}
    (h : changes.map (resolve t base) = targets.map .ok) :
    targets.map Target.change = changes ∧ ∀ c ∈ targets, c.change.resolve t base = .ok c := by
  induction changes generalizing targets with
  | nil =>
    obtain rfl := List.map_eq_nil_iff.1 h.symm
    exact ⟨rfl, nofun⟩
  | cons c changes ih =>
    cases targets with
    | nil => cases h
    | cons target targets =>
      obtain ⟨hc, h⟩ := List.cons.inj h
      obtain ⟨hchanges, hres⟩ := ih h
      have htarget : target.change = c := by rw [(resolve_cases hc).1]
      exact ⟨by rw [List.map_cons, htarget, hchanges], List.forall_mem_cons.2 ⟨htarget ▸ hc, hres⟩⟩

theorem resolve_all (hl : t.LinkFree) (hb : Path.Plain base.path) {changes : List Change}
    {targets : List Target} (h : changes.map (resolve t base) = targets.map .ok) :
    targets.map Target.change = changes ∧ (∀ c ∈ targets, Path.Plain c.dest) ∧
      ∀ c ∈ targets, base.resolve? c.path = some c.dest := by
  obtain ⟨hchanges, hres⟩ := change_resolve_all h
  exact ⟨hchanges, fun c hc => resolve_plain hl hb (hres c hc),
    fun c hc => (resolve_eq_ok hl hb (hres c hc)).2⟩

theorem mem_of_resolve_all (hl : t.LinkFree) (hb : Path.Plain base.path) {changes : List Change}
    {targets : List Target} (h : changes.map (resolve t base) = targets.map .ok) {c : Change}
    (hc : c ∈ changes) (hp : base.resolve? c.path = some p) : ⟨c, p⟩ ∈ targets := by
  obtain ⟨rfl, -, hdest⟩ := resolve_all hl hb h
  obtain ⟨target, ht, rfl⟩ := List.mem_map.1 hc
  have hsame : target.dest = p := Option.some.inj ((hdest target ht).symm.trans hp)
  exact hsame ▸ ht

theorem Planned.targets (hl : t.LinkFree) (hb : Path.Plain base.path) {changes : List Change}
    {targets : List Target} (h : Planned t base changes)
    (hres : changes.map (resolve t base) = targets.map .ok) : Target.Planned t targets := by
  obtain ⟨rfl, hplain, hdest⟩ := resolve_all hl hb hres
  constructor
  case sound =>
    intro c hc
    obtain ⟨p, hp, hs⟩ := h.sound _ (List.mem_map_of_mem hc)
    obtain rfl := Option.some.inj ((hdest c hc).symm.trans hp)
    exact hs
  case plain => exact hplain
  case apart =>
    refine (List.pairwise_map.1 h.apart).imp_of_mem fun hc hc' hne he => hne ?_
    exact (hdest _ hc).trans ((congrArg some he).trans (hdest _ hc').symm)

end Change

namespace Commit

variable {names : List Name} {changes : List Change} {policy : Policy} {options : Options}

theorem run_eq_runAt (hb : t.realPath names = .ok base) :
    run t names changes policy options = runAt t base changes policy options := by
  rw [run, hb]

theorem realPath_of_run {s : Summary} (hs : (run t names changes policy options).outcome = .ok s) :
    ∃ base, t.realPath names = .ok base := by
  unfold run at hs
  split at hs
  · cases hs
  · next base hb => exact ⟨base, hb⟩

end Commit

end Emend
