import Emend.Proofs.Commit.Discard
import Emend.Proofs.Commit.Rewind

namespace Emend

open EStateM FileTree

namespace Workspace

variable {t₀ t : FileTree} {dests : List Path} {v w w' : Workspace} {c : Target} {cs : List Target}
  {temp : Path}

/-- All that was there before is there as it was, and what is tracked was not there. -/
structure Settled (t₀ : FileTree) (w : Workspace) : Prop where
  linkFree : w.tree.LinkFree
  kept : ∀ p, t₀.KeptAt w.tree p
  tracked : ∀ x ∈ w.staged ++ w.trash, Path.Plain x.2 ∧ t₀.get? x.2 = none

theorem Settled.discard (h : Settled t₀ w) (p : Path) : t₀.KeptAt w.discard p := by
  obtain he | ⟨⟨x, hx, rfl⟩, hn⟩ := discard_cases h.linkFree (fun x hx => (h.tracked x hx).1) p
  · exact (h.kept p).congr he
  · exact .inl (hn.trans (h.tracked x hx).2.symm)

def undoing (failed : List Text) (cs : List Target) (w : Workspace) : Pass Workspace Unit :=
  Pass.run .bestEffort Target.path (fun _ => undo) failed cs w

/-- Unless it is given up, the undoing of the changes settles what is like the workspace. -/
def Rewinds (t₀ : FileTree) (dests : List Path) (w : Workspace) (cs : List Target) : Prop :=
  ∀ u failed, Alike t₀ dests u w → (undoing failed cs u).abort? = none →
    Settled t₀ (undoing failed cs u).state

theorem rewinds_nil (h : ∀ p, t₀.KeptAt w.tree p) : Rewinds t₀ dests w [] := by
  intro u failed hu _
  refine ⟨hu.linkFree, fun p => ?_, fun x hx => ?_⟩
  · obtain he | ⟨⟨⟨kind, ht⟩, -⟩, hdir, -⟩ := hu.tree p
    · exact (h p).congr he
    · change t₀.KeptAt u.tree p
      cases hg : u.tree.get? p with
      | none => exact .inl (hg.trans ht.absent.symm)
      | some e =>
        cases e with
        | file b => exact .inr ⟨ht.absent, .inr ⟨ht.isTemp, b, hg⟩⟩
        | dir => exact absurd hg hdir
        | link target => exact absurd hg (hu.linkFree p target)
  · obtain ⟨kind, ht⟩ := hu.tracked x hx
    exact ⟨ht.plain, ht.absent⟩

theorem Rewinds.cons (h : Rewinds t₀ dests w cs)
    (hundo : ∀ u, Alike t₀ dests u w' → (Workspace.undo c).Ends u
      (fun _ v => Alike t₀ dests v w) (fun _ _ => False)) :
    Rewinds t₀ dests w' (c :: cs) := by
  intro u failed hu habort
  have hundo := hundo u hu
  unfold undoing at habort ⊢
  cases hc : Workspace.undo c u with
  | ok _ v =>
    simp only [Pass.run, hc] at habort ⊢
    exact h v failed (hundo.of_ok hc) habort
  | error e v => exact (hundo.of_error hc).elim

/-- The changes in `rest` are to be promoted, and those in `ready` will find what they agree with; those
that have been promoted can be taken back. -/
structure InTurn (t₀ : FileTree) (dests : List Path) (files : Path → Option ByteArray)
    (aside : List Path) (ready rest : List Target) (w : Workspace) : Prop
    extends Steady t₀ dests w, Stocked rest w where
  rewinds : Rewinds t₀ dests w w.promoted.reverse
  agrees : Target.AgreeInTurn files aside ready
  pending : ∀ c ∈ rest, Path.Plain c.dest ∧ c.dest ∈ dests
  found : ∀ c ∈ rest, w.tree.file? c.dest = files c.dest
  setAside : ∀ x ∈ w.trash, x.1 ∈ aside
  /-- A file that is made where one was set aside is the only one that is made there. -/
  written : ∀ d ∈ aside, files d ≠ none → w.staged.lookup d = none

namespace InTurn

variable {files : Path → Option ByteArray} {aside : List Path} {ready rest : List Target}
  (h : InTurn t₀ dests files aside (c :: ready) (c :: rest) w)
include h

theorem plain : Path.Plain c.dest := (h.pending c List.mem_cons_self).1

theorem mem_dests : c.dest ∈ dests := (h.pending c List.mem_cons_self).2

theorem found_here : w.tree.file? c.dest = files c.dest := h.found c List.mem_cons_self

theorem agrees_here : c.Agrees (w.tree.file? c.dest) := h.found_here ▸ h.agrees.1

theorem trash_eq_none (hd : c.dest ∉ aside) : w.trash.lookup c.dest = none := by
  apply Ledger.lookup_eq_none
  intro x hx he
  exact hd (he ▸ h.setAside x hx)

theorem trash_of_promotes (hprom : Promotes w c v) (hne : c.action ≠ .create) :
    w.trash.lookup c.dest = none := by
  apply h.trash_eq_none
  have hdelete (ha : c.action = .delete) : c.dest ∉ aside := h.agrees.2.1 ha
  cases hprom with
  | @write temp b t ha hm hs ht =>
    intro hd
    have hmodify : c.action = .modify := by
      have hagree := h.agrees.1
      cases haction : c.action with
      | create => exact absurd haction hne
      | modify => rfl
      | delete => exact absurd haction ha
      | other n => simp [Target.Agrees, haction] at hagree
    obtain ⟨b', hb'⟩ := exists_file?_of_has h.linkFree h.rooted h.plain (hm hmodify) ht.free
    rw [h.found_here] at hb'
    rw [h.written c.dest hd (by simp [hb'])] at hs
    cases hs
  | remove ha => exact hdelete ha
  | setAside ha => exact hdelete ha
  | idle ha => exact hdelete ha

theorem found_of_promotes (hprom : Promotes w c v) {c' : Target} (hc' : c' ∈ rest) :
    v.tree.file? c'.dest = Function.update files c.dest c.made c'.dest := by
  have hc := h.mem_dests
  have hsteady := hprom.steady h.toSteady hc
  obtain ⟨hplain, hd⟩ := h.pending c' (List.mem_cons_of_mem _ hc')
  by_cases he : c'.dest = c.dest
  · rw [he, Function.update_self]
    exact hprom.file?_dest h.toSteady hc h.toStocked.get?_of_lookup h.plain
  · have hdelete (ha : c.action = .delete) : w.trash.lookup c.dest = none :=
      h.trash_eq_none (h.agrees.2.1 ha)
    have hsame := hprom.visible_of_ne h.toSteady h.toStocked hdelete he
    rw [hsteady.visible_dest hd, h.visible_dest hd] at hsame
    rw [Function.update_of_ne he, ← h.found c' (List.mem_cons_of_mem _ hc')]
    exact file?_congr h.linkFree h.rooted hplain hsteady.linkFree hsteady.rooted hsame

theorem aside_of_promotes (hprom : Promotes w c v) {x : Path × Path} (hx : x ∈ v.trash) :
    x ∈ w.trash ∨ x.1 = c.dest ∧ c.SetsAside (files c.dest) := by
  cases hprom with
  | @setAside temp b t ha hf hroom hd ht =>
    obtain rfl | hx := Ledger.mem_of_mem_set hx
    · have hb : w.tree.get? c.dest = some (.file b) :=
        (hd.get?_put_of_ne ((h.tracked hd).ne_dest h.mem_dests).symm).symm.trans ht.source
      refine .inr ⟨rfl, ha, by simp [Target.known, hf], ?_⟩
      rw [← h.found_here, (file?_eq_some h.linkFree h.rooted h.plain).2 ⟨ht.reaches.2.1, hb⟩]
      rfl
    · exact .inl hx
  | write => exact .inl hx
  | remove => exact .inl hx
  | idle => exact .inl hx

theorem written_of_promotes (hprom : Promotes w c v) {d : Path} (hd : d = c.dest ∨ d ∈ aside)
    (hfile : Function.update files c.dest c.made d ≠ none) : v.staged.lookup d = none := by
  by_cases he : d = c.dest
  · subst he
    rw [Function.update_self, Target.made] at hfile
    have hw : c.Writes := by simpa using hfile
    cases hprom with
    | write => rw [Ledger.lookup_remove, if_pos rfl]
    | remove ha => exact absurd ha hw
    | setAside ha => exact absurd ha hw
    | idle ha => exact absurd ha hw
  · rw [Function.update_of_ne he] at hfile
    have hnone := h.written d (hd.resolve_left he) hfile
    cases hprom with
    | write => rw [Ledger.lookup_remove, if_neg he, hnone]
    | remove => exact hnone
    | setAside => exact hnone
    | idle => exact hnone

/-- A change that is promoted leaves the others in turn, and can be taken back itself. -/
theorem promotes (hprom : Promotes w c v) :
    InTurn t₀ dests (Function.update files c.dest c.made)
      (if c.SetsAside (files c.dest) then c.dest :: aside else aside) ready rest
      { v with promoted := v.promoted ++ [c] } := by
  have hc := h.mem_dests
  have hsteady := hprom.steady h.toSteady hc
  have hstocked := hprom.stocked h.toSteady hc h.toStocked
  have hpromoted : v.promoted = w.promoted := by cases hprom <;> rfl
  constructor
  case toSteady => exact ⟨hsteady.1, hsteady.2, hsteady.3, hsteady.4, hsteady.5, hsteady.6, hsteady.7⟩
  case toStocked => exact ⟨hstocked.1, hstocked.2, hstocked.3, hstocked.4, hstocked.5⟩
  case rewinds =>
    rw [hpromoted, List.reverse_concat]
    apply h.rewinds.cons
    intro u hu
    have hu : Alike t₀ dests u v := ⟨hu.linkFree, hu.tree, hu.trash, hu.tracked⟩
    exact undo_alike h.toSteady h.plain hc hu h.agrees_here (h.trash_of_promotes hprom) hprom
  case agrees => exact h.agrees.2.2
  case pending => exact (List.forall_mem_cons.1 h.pending).2
  case found => exact fun c' hc' => h.found_of_promotes hprom hc'
  case setAside =>
    intro x hx
    obtain hx | ⟨he, hset⟩ := h.aside_of_promotes hprom hx
    · split
      · exact List.mem_cons_of_mem _ (h.setAside x hx)
      · exact h.setAside x hx
    · rw [if_pos hset, he]
      exact List.mem_cons_self
  case written =>
    intro d hd
    apply h.written_of_promotes hprom
    split at hd
    · exact List.mem_cons.1 hd
    · exact .inr hd

end InTurn

end Workspace

end Emend
