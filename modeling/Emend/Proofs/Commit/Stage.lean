import Emend.Proofs.Commit.Pass
import Emend.Proofs.Commit.Supply

namespace Emend

open EStateM FileTree

namespace Target

def Above (cs : List Target) (p : Path) : Prop := ∃ c ∈ cs, c.Writes ∧ p <+: c.dest.parent

variable {done : List Target} {c : Target} {p : Path}

theorem above_concat : Above (done ++ [c]) p ↔ Above done p ∨ c.Writes ∧ p <+: c.dest.parent := by
  simp [Above, or_and_right, exists_or]

theorem not_above_of_fresh {t : FileTree} {reserved : List Name} {dir : Path} {kind : TempKind} {n : Nat}
    (hn : t.Fresh reserved dir kind n) (hreserves : ∀ c ∈ done, ∀ m ∈ c.dest, m ∈ reserved) :
    ¬Above done (dir ++ [tempName kind n]) := by
  rintro ⟨c, hc, -, hp⟩
  exact hn.unreserved (hreserves c hc _ ((hp.trans (Path.parent_isPrefix _)).mem (by simp)))

theorem above_concat_of_delete (ha : c.action = .delete) : Above (done ++ [c]) p ↔ Above done p := by
  simp [above_concat, Writes, ha]

end Target

theorem forall_writes_concat {P : Target → Prop} {done : List Target} {c : Target}
    (hdone : ∀ c ∈ done, c.Writes → P c) (hc : c.Writes → P c) :
    ∀ c' ∈ done ++ [c], c'.Writes → P c' := by
  intro c' hc'
  obtain hc' | hc' := List.mem_append.1 hc'
  · exact hdone c' hc'
  · rw [List.mem_singleton.1 hc']
    exact hc

namespace Workspace

variable {t₀ : FileTree} {dests : List Path} {w w' : Workspace} {c : Target} {done : List Target}

/-- Nothing but the depth of its directories keeps a change from being staged. -/
def Stageable (w : Workspace) (c : Target) : Prop :=
  c.Writes → w.staged.lookup c.dest = none ∧ w.tree.Openable c.dest.parent ∧
    tooLong (c.dest.parent ++ [tempName .staged 0]) = false ∧
    ∃ n, w.tree.Fresh w.reserved c.dest.parent .staged n

/-- What a change does that is staged. -/
inductive Stages (w : Workspace) (c : Target) : Workspace → Prop
  /-- A file that is to be deleted needs no content. -/
  | skip (ha : c.action = .delete) : Stages w c w
  | write {t : FileTree} {temp : Path} (ha : c.Writes) (hs : w.staged.lookup c.dest = none)
      (ho : w.tree.Opened c.dest.parent t) (hroom : t.Drawable w.reserved .staged c.dest.parent)
      (hd : t.Drawn w.reserved .staged temp) (htemp : temp.parent = c.dest.parent) :
      Stages w c { w with
        tree := t.put temp (.file c.bytes), staged := w.staged.set c.dest temp }

theorem Stages.reserved (h : Stages w c w') : w'.reserved = w.reserved := by
  cases h <;> rfl

/-- What a change leaves that fails to be staged: at most directories. -/
structure Unstaged (w : Workspace) (c : Target) (e : Failure) (w' : Workspace) : Prop where
  grows : w.tree.GrowsTo c.dest.parent w'.tree
  rooted : w.tree.Rooted → w'.tree.Rooted
  eq : w' = { w with tree := w'.tree }
  reason : e = .call (.aborted .tooDeep) ∧ maxDepth < w.tree.levels c.dest.parent ∨ ¬w.Stageable c

theorem stage_steps (hl : w.tree.LinkFree) (hp : Path.Plain c.dest) :
    (stage c).Ends w (fun _ w' => Stages w c w') (fun e w' => Unstaged w c e w') := by
  simp only [stage, ends_bind, ends_get]
  split
  · next ha => exact .skip ha
  · next ha =>
    have hw : c.Writes := ha
    split
    · next hs =>
      refine ⟨.refl _ _, id, rfl, .inr fun h => ?_⟩
      rw [(h hw).1] at hs
      cases hs
    · next hs =>
      have hs : w.staged.lookup c.dest = none := Option.not_isSome_iff_eq_none.1 hs
      simp only [ends_bind, ends_call]
      apply (makeDirs_opens hl hp.parent).mono
      · intro _ t ho
        apply (makeTemp_draws (ho.grows.linkFree hl) hp.parent _ _ _).mono
        · rintro temp _ ⟨hroom, hd, htemp, rfl⟩
          exact .write hw hs ho hroom hd htemp
        · rintro e _ ⟨rfl, hnot⟩
          refine ⟨ho.grows, ho.rooted, rfl, .inr fun h => hnot ?_⟩
          obtain ⟨-, hopen, hshort, n, hn⟩ := h hw
          exact ⟨hopen.hasNull, hshort, hopen.fits, ho.dirs, n, hn.grows ho.grows⟩
      · rintro e t ⟨hg, hroot, he⟩
        exact ⟨hg, hroot, rfl, he.imp (And.imp_left (congrArg Failure.call)) fun hnot h => hnot (h hw).2.1⟩

/-- Each of the changes that writes a file has its content in a temporary file of its own. -/
structure Stocked (cs : List Target) (w : Workspace) : Prop where
  content : ∀ c ∈ cs, c.Writes → ∃ temp, w.staged.lookup c.dest = some temp ∧
    w.tree.get? temp = some (.file c.bytes)
  once : cs.Pairwise fun c c' => c.Writes → c'.Writes → c.dest ≠ c'.dest
  needed : ∀ x ∈ w.staged, ∃ c ∈ cs, c.Writes ∧ c.dest = x.1
  single : ∀ x ∈ w.staged, w.staged.lookup x.1 = some x.2
  apart : ∀ x ∈ w.staged, ∀ y ∈ w.staged, x.2 = y.2 → x.1 = y.1

/-- The changes in `done` have been staged, and nothing else has happened. -/
structure Prepared (t₀ : FileTree) (dests : List Path) (done : List Target) (w : Workspace) : Prop
    extends Stocked done w where
  linkFree : w.tree.LinkFree
  rooted : w.tree.Rooted
  reserves : ∀ d ∈ dests, ∀ n ∈ d, n ∈ w.reserved
  /-- What has been added is above a place that is written, or it is tracked. -/
  added : ∀ p, w.tree.get? p = t₀.get? p ∨ t₀.get? p = none ∧
    (Target.Above done p ∧ w.tree.get? p = some .dir ∨
      (∃ x ∈ w.staged, x.2 = p) ∧ ∃ b, w.tree.get? p = some (.file b))
  opened : ∀ p, Target.Above done p → w.tree.get? p = some .dir
  openable : ∀ c ∈ done, c.Writes →
    t₀.Openable c.dest.parent ∧ tooLong (c.dest.parent ++ [tempName .staged 0]) = false
  staged : ∀ x ∈ w.staged, Tracked t₀ dests .staged x.2
  reach : ∀ x ∈ w.staged, w.tree.Reaches x.2
  drew : Drew t₀ .staged done w
  kept : Drew t₀ .setAside [] w
  trash : w.trash = []
  promoted : w.promoted = []

theorem Stocked.get?_of_mem {x : Path × Path} (h : Stocked done w) (hx : x ∈ w.staged) :
    ∃ c ∈ done, c.Writes ∧ c.dest = x.1 ∧ w.tree.get? x.2 = some (.file c.bytes) := by
  obtain ⟨c, hc, hw, he⟩ := h.needed x hx
  obtain ⟨temp, ht, hb⟩ := h.content c hc hw
  rw [he, h.single x hx] at ht
  cases ht
  exact ⟨c, hc, hw, he, hb⟩

theorem Stocked.get?_of_lookup (h : Stocked (c :: done) w) (hw : c.Writes) (temp : Path)
    (hl : w.staged.lookup c.dest = some temp) : w.tree.get? temp = some (.file c.bytes) := by
  obtain ⟨temp', hl', hb⟩ := h.content c List.mem_cons_self hw
  rw [hl] at hl'
  cases hl'
  exact hb

/-- What is staged is the content of changes, each in a file of its own. -/
structure Stored (cs : List Target) (w : Workspace) : Prop where
  content : ∀ x ∈ w.staged, ∃ c ∈ cs, c.Writes ∧ c.dest = x.1 ∧ w.tree.get? x.2 = some (.file c.bytes)
  apart : ∀ x ∈ w.staged, ∀ y ∈ w.staged, x.2 = y.2 → x.1 = y.1

theorem Stocked.stored (h : Stocked done w) : Stored done w := ⟨fun _ => h.get?_of_mem, h.apart⟩

namespace Stored

variable {cs cs' : List Target} {temp : Path} (h : Stored cs w)
include h

theorem ne_of_free (hfree : w.tree.get? temp = none) {x : Path × Path} (hx : x ∈ w.staged) :
    x.2 ≠ temp := by
  obtain ⟨c, -, -, -, hb⟩ := h.content x hx
  rintro rfl
  rw [hfree] at hb
  cases hb

theorem subset (hsub : cs ⊆ cs') : Stored cs' w :=
  ⟨fun x hx => (h.content x hx).imp fun _ => And.imp_left (hsub ·), h.apart⟩

theorem mono (hsame : ∀ x ∈ w'.staged, x ∈ w.staged ∧ w'.tree.get? x.2 = w.tree.get? x.2) :
    Stored cs w' := by
  constructor
  case content =>
    intro x hx
    obtain ⟨hx, he⟩ := hsame x hx
    rw [he]
    exact h.content x hx
  case apart => exact fun x hx y hy => h.apart x (hsame x hx).1 y (hsame y hy).1

theorem grows {p : Path} {t : FileTree} (hg : w.tree.GrowsTo p t) : Stored cs { w with tree := t } := by
  refine h.mono fun x hx => ?_
  obtain ⟨c, -, -, -, hb⟩ := h.content x hx
  exact ⟨hx, (hg.get?_eq_some hb).trans hb.symm⟩

theorem write (hw : c.Writes) (hd : w.tree.Drawn w.reserved .staged temp) :
    Stored (c :: cs) { w with
      tree := w.tree.put temp (.file c.bytes), staged := w.staged.set c.dest temp } := by
  constructor
  case content =>
    intro x hx
    obtain rfl | hx := Ledger.mem_of_mem_set hx
    · exact ⟨c, List.mem_cons_self, hw, rfl, hd.get?_put_self⟩
    · obtain ⟨c', hc', hw', he, hb⟩ := h.content x hx
      have hne := h.ne_of_free hd.free hx
      exact ⟨c', List.mem_cons_of_mem _ hc', hw', he, (hd.get?_put_of_ne hne).trans hb⟩
  case apart =>
    intro x hx y hy he
    obtain rfl | hx := Ledger.mem_of_mem_set hx
    · obtain rfl | hy := Ledger.mem_of_mem_set hy
      · rfl
      · exact absurd he.symm (h.ne_of_free hd.free hy)
    · obtain rfl | hy := Ledger.mem_of_mem_set hy
      · exact absurd he (h.ne_of_free hd.free hx)
      · exact h.apart x hx y hy he

end Stored

namespace Prepared

variable (h : Prepared t₀ dests done w)
include h

theorem get?_eq_none {p : Path} (hn : w.tree.get? p = none) : t₀.get? p = none := by
  obtain he | ⟨hn, -⟩ := h.added p
  · rw [← he, hn]
  · exact hn

theorem keptAt (p : Path) : t₀.KeptAt w.tree p := by
  obtain he | ⟨hn, ⟨-, hd⟩ | ⟨⟨x, hx, rfl⟩, hb⟩⟩ := h.added p
  · exact .inl he
  · exact .inr ⟨hn, .inl hd⟩
  · exact .inr ⟨hn, .inr ⟨(h.staged x hx).isTemp, hb⟩⟩

theorem skip (ha : c.action = .delete) : Prepared t₀ dests (done ++ [c]) w := by
  have hnot : ¬c.Writes := fun hw => hw ha
  constructor
  case toStocked =>
    constructor
    case content => exact forall_writes_concat h.content fun hw => absurd hw hnot
    case once =>
      apply List.pairwise_append.2 ⟨h.once, List.pairwise_singleton _ _, _⟩
      intro c' _ c'' hc'' _ hw
      rw [List.mem_singleton.1 hc''] at hw
      exact absurd hw hnot
    case needed =>
      intro x hx
      obtain ⟨c', hc', he⟩ := h.needed x hx
      exact ⟨c', List.mem_append_left _ hc', he⟩
    case single => exact h.single
    case apart => exact h.apart
  case linkFree => exact h.linkFree
  case rooted => exact h.rooted
  case reserves => exact h.reserves
  case added =>
    intro p
    rw [Target.above_concat_of_delete ha]
    exact h.added p
  case opened =>
    intro p
    rw [Target.above_concat_of_delete ha]
    exact h.opened p
  case openable => exact forall_writes_concat h.openable fun hw => absurd hw hnot
  case staged => exact h.staged
  case reach => exact h.reach
  case drew => exact h.drew.skip hnot
  case kept => exact h.kept
  case trash => exact h.trash
  case promoted => exact h.promoted

section Write

variable {t : FileTree} {temp : Path} (hw : c.Writes)
  (hs : w.staged.lookup c.dest = none) (ho : w.tree.Opened c.dest.parent t)
  (hd : t.Drawn w.reserved .staged temp)
include ho hd

omit h in
theorem get?_put_staged {p : Path} {e : Entry} (he : w.tree.get? p = some e) :
    (t.put temp (.file c.bytes)).get? p = some e := by
  have hp : p ≠ temp := by
    rintro rfl
    rw [ho.grows.get?_eq_none hd.free] at he
    cases he
  rw [hd.get?_put_of_ne hp, ho.grows.get?_eq_some he]

include hw hs in
theorem write_stocked : Stocked (done ++ [c]) { w with
    tree := t.put temp (.file c.bytes), staged := w.staged.set c.dest temp } := by
  -- Nothing has been staged for the place of the change, so what is staged for others stays.
  have hother {c' : Target} (hc' : c' ∈ done) (hw' : c'.Writes) : c'.dest ≠ c.dest := by
    obtain ⟨temp', ht, -⟩ := h.content c' hc' hw'
    intro he
    rw [he, hs] at ht
    cases ht
  have hkey {x : Path × Path} (hx : x ∈ w.staged) : x.1 ≠ c.dest := by
    obtain ⟨c', hc', hw', he⟩ := h.needed x hx
    exact he ▸ hother hc' hw'
  constructor
  case content =>
    apply forall_writes_concat
    · intro c' hc' hw'
      obtain ⟨temp', hl, hb⟩ := h.content c' hc' hw'
      exact ⟨temp', by rw [Ledger.lookup_set, if_neg (hother hc' hw'), hl], get?_put_staged ho hd hb⟩
    · exact fun _ => ⟨temp, by rw [Ledger.lookup_set, if_pos rfl], hd.get?_put_self⟩
  case once =>
    apply List.pairwise_append.2 ⟨h.once, List.pairwise_singleton _ _, _⟩
    intro c' hc' c'' hc'' hw' _
    rw [List.mem_singleton.1 hc'']
    exact hother hc' hw'
  case needed =>
    intro x hx
    obtain rfl | hx := Ledger.mem_of_mem_set hx
    · exact ⟨c, by simp, hw, rfl⟩
    · obtain ⟨c', hc', he⟩ := h.needed x hx
      exact ⟨c', List.mem_append_left _ hc', he⟩
  case single =>
    intro x hx
    obtain rfl | hx := Ledger.mem_of_mem_set hx
    · rw [Ledger.lookup_set, if_pos rfl]
    · rw [Ledger.lookup_set, if_neg (hkey hx), h.single x hx]
  case apart => exact ((h.toStocked.stored.grows ho.grows).write hw hd).apart

omit h in
theorem sameFile_put {p : Path} (hp : p ≠ temp) : w.tree.SameFile (t.put temp (.file c.bytes)) p :=
  (ho.grows.grownAt p).sameFile.trans (.of_eq (hd.get?_put_of_ne hp))

theorem write_rooted (htemp : temp.parent = c.dest.parent) : (t.put temp (.file c.bytes)).Rooted := by
  have hne := ne_nil_of_get? hd.free nofun
  apply (ho.rooted h.rooted).put_of_holds
  · rw [← List.dropLast_concat_getLast hne]
    refine holds_concat.2 ?_
    rw [show temp.dropLast = c.dest.parent from htemp]
    exact ⟨ho.holds, ho.get?_self⟩
  · simp [hd.free]

include hw hs in
theorem write_added (p : Path) : (t.put temp (.file c.bytes)).get? p = t₀.get? p ∨ t₀.get? p = none ∧
    (Target.Above (done ++ [c]) p ∧ (t.put temp (.file c.bytes)).get? p = some .dir ∨
      (∃ x ∈ w.staged.set c.dest temp, x.2 = p) ∧
        ∃ b, (t.put temp (.file c.bytes)).get? p = some (.file b)) := by
  rw [get?_put t (ne_nil_of_get? hd.free nofun) (.file c.bytes)]
  split
  · next hp =>
    subst hp
    have hfree := h.get?_eq_none (ho.grows.get?_eq_none hd.free)
    exact .inr ⟨hfree, .inr ⟨⟨_, Ledger.mem_set_self, rfl⟩, c.bytes, rfl⟩⟩
  · obtain he | ⟨hp, hn, hdir⟩ := ho.grows p
    · rw [he]
      refine (h.added p).imp_right (And.imp_right (Or.imp (And.imp_left ?_) (And.imp_left ?_)))
      · exact fun hp => Target.above_concat.2 (.inl hp)
      · rintro ⟨x, hx, rfl⟩
        refine ⟨x, Ledger.mem_set_of_ne hx fun hk => ?_, rfl⟩
        have hl := h.single x hx
        rw [hk, hs] at hl
        cases hl
    · exact .inr ⟨h.get?_eq_none hn, .inl ⟨Target.above_concat.2 (.inr ⟨hw, hp⟩), hdir⟩⟩

theorem write_opened {p : Path} (hp : Target.Above (done ++ [c]) p) :
    (t.put temp (.file c.bytes)).get? p = some .dir := by
  obtain hp | ⟨-, hp⟩ := Target.above_concat.1 hp
  · exact get?_put_staged ho hd (h.opened p hp)
  · have hdir := ho.dirs _ hp
    have hpt : p ≠ temp := by
      rintro rfl
      rw [hd.free] at hdir
      cases hdir
    rw [hd.get?_put_of_ne hpt, hdir]

omit hd in
theorem write_openable (hroom : t.Drawable w.reserved .staged c.dest.parent) :
    t₀.Openable c.dest.parent := by
  refine ⟨hroom.hasNull, hroom.fits, fun q hq => ?_⟩
  obtain he | ⟨hn, -⟩ := h.added q
  · rw [← he]
    exact ho.passable q hq
  · exact .inl hn

theorem tracked_temp : Tracked t₀ dests .staged temp := by
  refine ⟨?_, hd.plain, h.get?_eq_none (ho.grows.get?_eq_none hd.free), ?_⟩
  · obtain ⟨dir, n, he, -⟩ := hd.name
    exact ⟨dir, n, he⟩
  · exact fun d hd' => hd.not_isPrefix (h.reserves d hd')

theorem write_reach (hroom : t.Drawable w.reserved .staged c.dest.parent)
    (htemp : temp.parent = c.dest.parent) :
    ∀ x ∈ w.staged.set c.dest temp, (t.put temp (.file c.bytes)).Reaches x.2 := by
  have hdirs := get?_dir_put (e := .file c.bytes) (by simp [hd.free] : t.get? temp ≠ some .dir)
  intro x hx
  obtain rfl | hx := Ledger.mem_of_mem_set hx
  · exact (hroom.reaches_drawn hd htemp).mono hdirs
  · exact ((h.reach x hx).mono fun _ => ho.grows.get?_eq_some).mono hdirs

include hw in
theorem write_drew (htemp : temp.parent = c.dest.parent) : Drew t₀ .staged (done ++ [c])
    { w with tree := t.put temp (.file c.bytes), staged := w.staged.set c.dest temp } := by
  have hfree := ho.grows.get?_eq_none hd.free
  obtain ⟨dir, n, rfl, hn⟩ := hd.name
  obtain rfl : dir = c.dest.parent := by simpa [Path.parent] using htemp
  have hfresh : t₀.Fresh w.reserved c.dest.parent .staged n :=
    ⟨hn.lt, hn.unreserved, h.get?_eq_none hfree⟩
  exact h.drew.draw hw hfresh hfree rfl ⟨_, hd.get?_put_self⟩ fun _ _ _ hp => sameFile_put ho hd hp

theorem write_kept : Drew t₀ .setAside []
    { w with tree := t.put temp (.file c.bytes), staged := w.staged.set c.dest temp } := by
  refine h.kept.congr rfl fun dir n _ => sameFile_put ho hd fun he => ?_
  obtain ⟨dir', n', rfl, -⟩ := hd.name
  cases kind_eq_of_concat he

include hw hs in
theorem write (hroom : t.Drawable w.reserved .staged c.dest.parent) (htemp : temp.parent = c.dest.parent) :
    Prepared t₀ dests (done ++ [c]) { w with
      tree := t.put temp (.file c.bytes), staged := w.staged.set c.dest temp } where
  toStocked := h.write_stocked hw hs ho hd
  linkFree := (ho.grows.linkFree h.linkFree).put (ne_nil_of_get? hd.free nofun) nofun
  rooted := h.write_rooted ho hd htemp
  reserves := h.reserves
  added := h.write_added hw hs ho hd
  opened _ := h.write_opened ho hd
  openable := forall_writes_concat h.openable fun _ => ⟨h.write_openable ho hroom, hroom.short⟩
  staged x hx := by
    obtain rfl | hx := Ledger.mem_of_mem_set hx
    · exact h.tracked_temp ho hd
    · exact h.staged x hx
  reach := h.write_reach ho hd hroom htemp
  drew := h.write_drew hw ho hd htemp
  kept := h.write_kept ho hd
  trash := h.trash
  promoted := h.promoted

end Write

theorem stage (hs : Stages w c w') : Prepared t₀ dests (done ++ [c]) w' := by
  cases hs with
  | skip ha => exact h.skip ha
  | write ha hs ho hroom hd htemp => exact h.write ha hs ho hd hroom htemp

end Prepared

theorem start_reserves (t : FileTree) (backup : Option Text) (targets : List Target) :
    ∀ d ∈ targets.map Target.dest, ∀ n ∈ d, n ∈ (start t backup targets).reserved := by
  intro d hd n hn
  obtain ⟨c, hc, rfl⟩ := List.mem_map.1 hd
  apply List.mem_append_left
  exact List.mem_flatMap.2 ⟨c, hc, List.mem_append_left _ hn⟩

section Start

variable {t : FileTree} {backup : Option Text} {targets : List Target} (hl : t.LinkFree)
  (hroot : t.Rooted)
include hl hroot

theorem prepared_start (hreserves : ∀ d ∈ dests, ∀ n ∈ d, n ∈ (start t backup targets).reserved) :
    Prepared t dests [] (start t backup targets) where
  content := nofun
  once := .nil
  needed := nofun
  single := nofun
  apart := nofun
  linkFree := hl
  rooted := hroot
  reserves := hreserves
  added _ := .inl rfl
  opened := by simp [Target.Above]
  openable := nofun
  staged := nofun
  reach := nofun
  drew := drew_nil rfl
  kept := drew_nil rfl
  trash := rfl
  promoted := rfl

/-- All changes are staged, or the first that is not ends the staging or is among the failures. -/
theorem stage_all (hp : ∀ c ∈ targets, Path.Plain c.dest) (policy : Policy)
    (hreserves : ∀ d ∈ dests, ∀ n ∈ d, n ∈ (start t backup targets).reserved) :
    let pass := Pass.run policy Target.path (fun _ => stage) [] targets (start t backup targets)
    pass.failures = [] ∧ pass.abort? = none ∧ Prepared t dests targets pass.state ∧
        pass.state.reserved = (start t backup targets).reserved ∨
      ∃ e w', (∃ done c rest w, targets = done ++ c :: rest ∧ Prepared t dests done w ∧
        w.reserved = (start t backup targets).reserved ∧ Unstaged w c e w') ∧ pass.Stopped policy e w' := by
  intro pass
  let inv (rest : List Target) (w : Workspace) : Prop :=
    ∃ done, targets = done ++ rest ∧ Prepared t dests done w ∧
      w.reserved = (start t backup targets).reserved
  obtain ⟨hfailures, habort, done, hdone, h, hreserved⟩ | hstop :=
    Pass.run_first Target.path (fun _ => stage) inv policy []
      (fun e w' => ∃ done c rest w, targets = done ++ c :: rest ∧ Prepared t dests done w ∧
        w.reserved = (start t backup targets).reserved ∧ Unstaged w c e w')
      (by
        rintro c rest w ⟨done, hdone, h, hreserved⟩
        have hc : c ∈ targets := by simp [hdone]
        apply (stage_steps h.linkFree (hp c hc)).mono
        · intro _ w' hs
          exact ⟨done ++ [c], by simp [hdone], h.stage hs, hs.reserved.trans hreserved⟩
        · intro e w' hu
          exact ⟨done, c, rest, w, hdone, h, hreserved, hu⟩)
      ⟨[], rfl, prepared_start hl hroot hreserves, rfl⟩
  · rw [List.append_nil] at hdone
    exact .inl ⟨hfailures, habort, hdone ▸ h, hreserved⟩
  · exact .inr hstop

end Start

end Workspace

end Emend
