import Emend.Proofs.Commit.Discard
import Emend.Proofs.Commit.Made

namespace Emend

open EStateM FileTree

/-- Nothing in the tree keeps the change from being made together with the others. -/
inductive Target.Feasible (t : FileTree) (targets : List Target) (c : Target) : Prop
  | write (ha : c.Writes) (hopen : t.Openable c.dest.parent)
      (hshort : tooLong (c.dest.parent ++ [tempName .staged 0]) = false)
      (hnull : Path.hasNull c.dest = false) (hfits : Fits c.dest) (hfree : t.get? c.dest ≠ some .dir)
      (habove : ¬Target.Above targets c.dest) (hm : c.action = .modify → t.has c.dest = true)
  | delete {b : ByteArray} (ha : c.action = .delete) (hnull : Path.hasNull c.dest = false)
      (hfits : Fits c.dest) (hb : t.get? c.dest = some (.file b))
      (hshort : c.change.former = none → tooLong (c.dest.parent ++ [tempName .setAside 0]) = false)
  | idle (ha : c.action = .delete) (hn : t.has c.dest = false) (habove : ¬Target.Above targets c.dest)

namespace Workspace

variable {t t₀ : FileTree} {dests : List Path} {targets done rest : List Target} {v w w' : Workspace}
  {c : Target}

theorem Promotes.get?_dir (hprom : Promotes w c v) {p : Path} (hp : w.tree.get? p = some .dir) :
    v.tree.get? p = some .dir := by
  cases hprom with
  | write _ _ _ ht => exact ht.get?_dir hp
  | remove _ _ _ hb => exact get?_dir_erase (ne_dir_of_get? hb) p hp
  | setAside _ _ _ hd ht => exact ht.get?_dir (get?_dir_put (by simp [hd.free]) p hp)
  | idle => exact hp

theorem Promotes.reach (hprom : Promotes w c v) (h : ∀ x ∈ w.staged, w.tree.Reaches x.2) :
    ∀ x ∈ v.staged, v.tree.Reaches x.2 := by
  intro x hx
  refine (h x ?_).mono fun _ => hprom.get?_dir
  cases hprom with
  | write => exact (Ledger.mem_remove.1 hx).1
  | remove => exact hx
  | setAside => exact hx
  | idle => exact hx

theorem Promotes.trash_cases (hprom : Promotes w c v) {x : Path × Path} (hx : x ∈ v.trash) :
    x ∈ w.trash ∨ x.1 = c.dest ∧ v.tree.Reaches x.2 := by
  cases hprom with
  | setAside _ _ _ _ ht =>
    obtain rfl | hx := Ledger.mem_of_mem_set hx
    · exact .inr ⟨rfl, ht.reaches_target.mono fun _ => ht.get?_dir⟩
    · exact .inl hx
  | write => exact .inl hx
  | remove => exact .inl hx
  | idle => exact .inl hx

theorem Promotes.eq_of_not_fits (hprom : Promotes w c v) (hfits : ¬Fits c.dest) : v = w := by
  cases hprom with
  | write _ _ _ ht => exact absurd ht.reaches_target.2.1 hfits
  | remove _ _ hr => exact absurd hr.2.1 hfits
  | setAside _ _ _ _ ht => exact absurd ht.reaches.2.1 hfits
  | idle => rfl

/-- The changes in `done` have been promoted, and those in `rest` are to be. -/
structure Halfway (t : FileTree) (dests : List Path) (targets done rest : List Target)
    (w : Workspace) : Prop extends Steady t dests w, Stocked rest w where
  start : t.LinkFree ∧ t.Rooted
  eq : targets = done ++ rest
  within : ∀ c ∈ targets, Path.Plain c.dest ∧ c.dest ∈ dests
  distinct : targets.Pairwise fun c c' => c.dest ≠ c'.dest
  dirs : ∀ p, t.get? p = some .dir → w.tree.get? p = some .dir
  opened : ∀ p, Target.Above targets p → w.tree.get? p = some .dir
  openable : ∀ c ∈ targets, c.Writes →
    t.Openable c.dest.parent ∧ tooLong (c.dest.parent ++ [tempName .staged 0]) = false
  shown : ∀ p, ¬Target.Above targets p → (∀ c ∈ done, c.dest ≠ p) → w.visible p = t.get? p
  written : ∀ c ∈ done, c.Writes → w.tree.get? c.dest = some (.file c.bytes)
  removed : ∀ c ∈ done, ¬c.Writes → Fits c.dest → w.tree.get? c.dest = none
  feasible : ∀ c ∈ done, c.Feasible t targets
  asideFor : ∀ x ∈ w.trash, ∃ c ∈ done, c.dest = x.1
  reach : ∀ x ∈ w.trash, w.tree.Reaches x.2
  reach_staged : ∀ x ∈ w.staged, w.tree.Reaches x.2
  drew : Drew t .setAside done w
  promoted : w.promoted = done

theorem Prepared.halfway (h : Prepared t dests targets w) (hl : t.LinkFree) (hroot : t.Rooted)
    (hwithin : ∀ c ∈ targets, Path.Plain c.dest ∧ c.dest ∈ dests)
    (hdistinct : targets.Pairwise fun c c' => c.dest ≠ c'.dest) :
    Halfway t dests targets [] targets w where
  toSteady := h.steady
  toStocked := h.toStocked
  start := ⟨hl, hroot⟩
  eq := rfl
  within := hwithin
  distinct := hdistinct
  dirs p hp := (h.keptAt p).get?_eq_some hp
  opened := h.opened
  openable := h.openable
  shown p hp _ := by
    obtain he | ⟨hn, ⟨hp', -⟩ | ⟨hx, -⟩⟩ := h.added p
    · unfold visible
      split
      · next htracks =>
        obtain ⟨x, hx, rfl⟩ | ⟨x, hx, -⟩ := htracks
        · exact (h.staged x hx).absent.symm
        · rw [h.trash] at hx
          cases hx
      · exact he
    · exact absurd hp' hp
    · rw [hn]
      exact visible_of_tracks (.inl hx)
  written := nofun
  removed := nofun
  feasible := nofun
  asideFor := by simp [h.trash]
  reach := by simp [h.trash]
  reach_staged := h.reach
  drew := h.kept
  promoted := h.promoted

namespace Halfway

theorem mem_targets (h : Halfway t dests targets done (c :: rest) w) : c ∈ targets := by
  simp [h.eq]

theorem visible_of_dir (h : Halfway t dests targets done rest w) {p : Path}
    (hd : w.tree.get? p = some .dir) : w.visible p = some .dir := by
  have hnot : ¬w.Tracks p := by
    rintro (⟨x, hx, rfl⟩ | ⟨x, hx, rfl⟩)
    · obtain ⟨c, -, -, -, hb⟩ := h.get?_of_mem hx
      rw [hd] at hb
      cases hb
    · obtain ⟨b, hb⟩ := h.held x hx
      rw [hd] at hb
      cases hb
  rw [visible, if_neg hnot, hd]

section

variable (h : Halfway t dests targets done (c :: rest) w)
include h

theorem plain : Path.Plain c.dest := (h.within c h.mem_targets).1

theorem mem_dests : c.dest ∈ dests := (h.within c h.mem_targets).2

theorem dest_ne {c' : Target} (hc' : c' ∈ done) : c'.dest ≠ c.dest := by
  have hdistinct := h.distinct
  rw [h.eq] at hdistinct
  exact (List.pairwise_append.1 hdistinct).2.2 c' hc' c List.mem_cons_self

theorem trash_eq_none : w.trash.lookup c.dest = none := by
  apply Ledger.lookup_eq_none
  intro x hx he
  obtain ⟨c', hc', he'⟩ := h.asideFor x hx
  exact h.dest_ne hc' (he'.trans he)

theorem get?_dest (habove : ¬Target.Above targets c.dest) : w.tree.get? c.dest = t.get? c.dest := by
  rw [← h.visible_dest h.mem_dests]
  exact h.shown c.dest habove fun _ hc' => h.dest_ne hc'

theorem not_above (hdir : w.tree.get? c.dest ≠ some .dir) : ¬Target.Above targets c.dest :=
  fun habove => hdir (h.opened _ habove)

theorem fits_of_above (habove : Target.Above targets c.dest) : Fits c.dest := by
  obtain ⟨c', hc', hw', hp⟩ := habove
  exact (h.openable c' hc' hw').1.fits.mono hp

theorem has_of_get? (hfits : Fits c.dest) (he : (w.tree.get? c.dest).isSome) :
    w.tree.has c.dest = true :=
  h.rooted.has h.linkFree h.plain hfits he

theorem has_of_start (habove : ¬Target.Above targets c.dest) (hhas : t.has c.dest = true) :
    w.tree.has c.dest = true :=
  h.rooted.has_congr h.linkFree h.start.1 h.plain (h.get?_dest habove).symm hhas

theorem not_above_of_feasible (hf : c.Feasible t targets) : ¬Target.Above targets c.dest := by
  cases hf with
  | write _ _ _ _ _ _ habove => exact habove
  | delete _ _ _ hb =>
    rintro ⟨c', hc', hw', hp⟩
    obtain hn | hd := (h.openable c' hc' hw').1.passable _ hp
    · rw [hb] at hn
      cases hn
    · rw [hb] at hd
      cases hd
  | idle _ _ habove => exact habove

theorem has_at_start (hf : c.Feasible t targets) (hhas : w.tree.has c.dest = true) :
    t.has c.dest = true :=
  h.start.2.has_congr h.start.1 h.linkFree h.plain (h.get?_dest (h.not_above_of_feasible hf)) hhas

theorem feasible_of_promotes (hprom : Promotes w c v) : c.Feasible t targets := by
  cases hprom with
  | @write temp b t' ha hm hs ht =>
    have hfree : w.tree.get? c.dest ≠ some .dir := ht.free
    have habove := h.not_above hfree
    obtain ⟨hopen, hshort⟩ := h.openable c h.mem_targets ha
    obtain ⟨hnull, hfits, -⟩ := ht.reaches_target
    refine .write ha hopen hshort hnull hfits (h.get?_dest habove ▸ hfree) habove fun hmodify => ?_
    exact h.start.2.has_congr h.start.1 h.linkFree h.plain (h.get?_dest habove) (hm hmodify)
  | @remove b ha hf hr hb =>
    have habove := h.not_above (ne_dir_of_get? hb)
    exact .delete ha hr.1 hr.2.1 (h.get?_dest habove ▸ hb) fun hn => absurd hn hf
  | @setAside temp b t' ha hf hroom hd ht =>
    have hb : w.tree.get? c.dest = some (.file b) :=
      (hd.get?_put_of_ne (hd.ne (h.reserves c.dest h.mem_dests))).symm.trans ht.source
    have habove := h.not_above (ne_dir_of_get? hb)
    exact .delete ha ht.reaches.1 ht.reaches.2.1 (h.get?_dest habove ▸ hb) fun _ => hroom.short
  | idle ha hn =>
    have habove : ¬Target.Above targets c.dest := by
      intro habove
      have hhas := h.has_of_get? (h.fits_of_above habove) (by simp [h.opened _ habove])
      rw [hn] at hhas
      cases hhas
    refine .idle ha (Bool.eq_false_iff.2 fun hhas => ?_) habove
    rw [h.has_of_start habove hhas] at hn
    cases hn

theorem get?_of_mem_done (hprom : Promotes w c v) {c' : Target} (hc' : c' ∈ done) :
    v.tree.get? c'.dest = w.tree.get? c'.dest :=
  hprom.get?_of_mem h.toSteady (h.within c' (by simp [h.eq, hc'])).2 (h.dest_ne hc')

theorem written_of_promotes (hprom : Promotes w c v) :
    ∀ c' ∈ done ++ [c], c'.Writes → v.tree.get? c'.dest = some (.file c'.bytes) := by
  apply forall_writes_concat
  · exact fun c' hc' hw' => (h.get?_of_mem_done hprom hc').trans (h.written c' hc' hw')
  · intro hw
    cases h.feasible_of_promotes hprom with
    | write ha hopen hshort hnull hfits =>
      rw [hprom.get?_dest h.toSteady h.mem_dests h.toStocked.get?_of_lookup h.plain hfits, Target.made,
        if_pos hw]
      rfl
    | delete ha => exact absurd ha hw
    | idle ha => exact absurd ha hw

theorem removed_of_promotes (hprom : Promotes w c v) :
    ∀ c' ∈ done ++ [c], ¬c'.Writes → Fits c'.dest → v.tree.get? c'.dest = none := by
  intro c' hc' hnot hfits
  obtain hc' | hc' := List.mem_append.1 hc'
  · exact (h.get?_of_mem_done hprom hc').trans (h.removed c' hc' hnot hfits)
  · rw [List.mem_singleton.1 hc'] at hnot hfits ⊢
    rw [hprom.get?_dest h.toSteady h.mem_dests h.toStocked.get?_of_lookup h.plain hfits, Target.made,
      if_neg hnot]
    rfl

theorem drew_of_promotes (hprom : Promotes w c v) : Drew t .setAside (done ++ [c]) v := by
  have hfeasible := h.feasible_of_promotes hprom
  refine hprom.drew h.toSteady h.mem_dests h.drew h.plain fun _ => Bool.eq_iff_iff.2 ?_
  exact ⟨h.has_at_start hfeasible, h.has_of_start (h.not_above_of_feasible hfeasible)⟩

theorem promotes (hprom : Promotes w c v) :
    Halfway t dests targets (done ++ [c]) rest { v with promoted := v.promoted ++ [c] } := by
  have hsteady := hprom.steady h.toSteady h.mem_dests
  have hstocked := hprom.stocked h.toSteady h.mem_dests h.toStocked
  have hwritten := h.written_of_promotes hprom
  have hremoved := h.removed_of_promotes hprom
  have hpromoted : v.promoted = w.promoted := by cases hprom <;> rfl
  constructor
  case toSteady => exact { hsteady with }
  case toStocked => exact { hstocked with }
  case start => exact h.start
  case eq => rw [h.eq, List.append_assoc, List.singleton_append]
  case within => exact h.within
  case distinct => exact h.distinct
  case dirs => exact fun p hp => hprom.get?_dir (h.dirs p hp)
  case opened => exact fun p hp => hprom.get?_dir (h.opened p hp)
  case openable => exact h.openable
  case shown =>
    intro p hp hne
    have hpc : p ≠ c.dest := (hne c (by simp)).symm
    have hsame := hprom.visible_of_ne h.toSteady h.toStocked (fun _ => h.trash_eq_none) hpc
    exact hsame.trans (h.shown p hp fun c' hc' => hne c' (List.mem_append_left _ hc'))
  case written => exact hwritten
  case removed => exact hremoved
  case feasible =>
    have hfeasible := List.forall_mem_singleton.2 (h.feasible_of_promotes hprom)
    exact List.forall_mem_append.2 ⟨h.feasible, hfeasible⟩
  case asideFor =>
    intro x hx
    obtain hx | ⟨he, -⟩ := hprom.trash_cases hx
    · obtain ⟨c', hc', he⟩ := h.asideFor x hx
      exact ⟨c', List.mem_append_left _ hc', he⟩
    · exact ⟨c, by simp, he.symm⟩
  case reach =>
    intro x hx
    obtain hx | ⟨-, hr⟩ := hprom.trash_cases hx
    · exact (h.reach x hx).mono fun _ => hprom.get?_dir
    · exact hr
  case reach_staged => exact hprom.reach h.reach_staged
  case drew => exact (h.drew_of_promotes hprom).congr rfl fun _ _ _ => .of_eq rfl
  case promoted => rw [hpromoted, h.promoted]

end

theorem promote_steps (h : Halfway t dests targets done (c :: rest) w) :
    (Workspace.promote none [] c).Ends w
      (fun _ w' => Halfway t dests targets (done ++ [c]) rest w' ∧ w'.reserved = w.reserved)
      (fun _ _ => ¬Promotable w c) := by
  apply (h.toSteady.promote_steps h.plain h.mem_dests []).mono
  · rintro - w' (⟨hfailed, -⟩ | ⟨-, v, hprom, rfl⟩)
    · cases hfailed
    · exact ⟨h.promotes hprom, hprom.reserved⟩
  · exact fun _ _ hfail => hfail.2

/-- All changes are promoted, or the first that cannot be ends the promotion or is among the failures. -/
theorem promote_all (h : Halfway t dests targets [] targets w) (policy : Policy) :
    let pass := Pass.run policy Target.path (Workspace.promote none) [] targets w
    pass.failures = [] ∧ pass.abort? = none ∧ Halfway t dests targets targets [] pass.state ∧
        pass.state.reserved = w.reserved ∨
      ∃ e w', (∃ done c rest v, Halfway t dests targets done (c :: rest) v ∧ v.reserved = w.reserved ∧
        ¬Promotable v c) ∧ pass.Stopped policy e w' := by
  intro pass
  obtain ⟨hf, ha, done, hdone, hreserved⟩ | hstop :=
    Pass.run_first Target.path (Workspace.promote none)
      (fun rest w' => ∃ done, Halfway t dests targets done rest w' ∧ w'.reserved = w.reserved) policy []
      (fun _ _ => ∃ done c rest v, Halfway t dests targets done (c :: rest) v ∧ v.reserved = w.reserved ∧
        ¬Promotable v c)
      (by
        rintro c rest v ⟨done, h, hreserved⟩
        apply h.promote_steps.mono
        · exact fun _ w' ⟨h', he⟩ => ⟨_, h', he.trans hreserved⟩
        · exact fun _ _ hnot => ⟨done, c, rest, v, h, hreserved, hnot⟩)
      ⟨[], h, rfl⟩
  · obtain rfl : targets = done := by simpa using hdone.eq
    exact .inl ⟨hf, ha, hdone, hreserved⟩
  · exact .inr hstop

end Halfway

theorem Steady.get?_discard (h : Steady t dests w) {p : Path} (hp : p ∈ dests) :
    w.discard.get? p = w.tree.get? p := by
  obtain he | ⟨⟨x, hx, rfl⟩, -⟩ := discard_cases h.linkFree (fun _ => h.plain_tracked) p
  · exact he
  · obtain ⟨kind, ht⟩ := h.exists_tracked hx
    exact absurd rfl (ht.ne_dest hp)

theorem Halfway.get?_discard (h : Halfway t dests targets done [] w) (p : Path) :
    w.discard.get? p = w.visible p := by
  have hstaged : w.staged = [] := by
    apply List.eq_nil_iff_forall_not_mem.2
    intro x hx
    obtain ⟨c, hc, -⟩ := h.needed x hx
    cases hc
  have htemps : ∀ temp ∈ (w.staged ++ w.trash).map (·.2), Path.Plain temp ∧ w.tree.Reaches temp ∧
      (w.tree.get? temp = none ∨ ∃ b, w.tree.get? temp = some (.file b)) := by
    rw [hstaged, List.nil_append]
    intro temp htemp
    obtain ⟨x, hx, rfl⟩ := List.mem_map.1 htemp
    exact ⟨(h.trash x hx).plain, h.reach x hx, .inr (h.held x hx)⟩
  rw [Workspace.discard, get?_foldl_discardFile h.linkFree htemps]
  have htracks : p ∈ (w.staged ++ w.trash).map (·.2) ↔ w.Tracks p := by
    simp [Tracks, hstaged]
  simp only [htracks, visible]

/-- Once all is promoted, the tree shows the changes and nothing else. -/
theorem Halfway.made (h : Halfway t dests targets targets [] w) : Made t targets w.discard := by
  have hdest {c : Target} (hc : c ∈ targets) : w.discard.get? c.dest = w.tree.get? c.dest :=
    h.toSteady.get?_discard (h.within c hc).2
  constructor
  case fits =>
    intro c hc hw
    cases h.feasible c hc with
    | write _ _ _ _ hfits => exact hfits
    | delete ha => exact absurd ha hw
    | idle ha => exact absurd ha hw
  case written => exact fun c hc hw => (hdest hc).trans (h.written c hc hw)
  case removed => exact fun c hc hnot hfits _ => (hdest hc).trans (h.removed c hc hnot hfits)
  case opened => exact fun p hp => (h.get?_discard p).trans (h.visible_of_dir (h.opened p hp))
  case passable =>
    rintro p ⟨c, hc, hw, hp⟩ _
    exact (h.openable c hc hw).1.passable p hp
  case others => exact fun p hp hne => (h.get?_discard p).trans (h.shown p hp hne)

end Workspace

end Emend
