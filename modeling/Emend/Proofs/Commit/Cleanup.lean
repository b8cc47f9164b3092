import Emend.Proofs.Commit.Tracking

namespace Emend

open EStateM FileTree

variable {k : Batch} {hand : List (Path × Path)} {w : Workspace} {t : FileTree} {c : Target}
  {dest temp p : Path}

namespace Workspace

/-- All temporary files are tracked, or they are among those `hand` that are being moved, or they are
lost. -/
structure Accounted (k : Batch) (hand : List (Path × Path)) (w : Workspace) : Prop where
  bounded : w.Bounded [] k.firm k.backup k.start
  promoted : ∀ c ∈ w.promoted, c ∈ k.targets
  staged : w.staged.Unique
  trash : w.trash.Unique
  aside : ∀ x ∈ w.trash, k.Free w.tree x.1 ∧
    ∃ c ∈ k.tried, c ∈ k.targets ∧ c.DeletesUnknown ∧ c.dest = x.1
  litter : ∀ p, w.tree.Litter p →
    k.Lost p ∨ ∃ x ∈ w.staged ++ w.trash ++ hand, k.Held w.tree x.1 x.2 p

namespace Accounted

section Steps

variable (h : w.Accounted k hand)
include h

theorem after (c : Target) (failures : List (Text × Failure)) :
    w.Accounted (k.after c failures) hand := by
  refine ⟨h.bounded, h.promoted, h.staged, h.trash, fun x hx => ?_, fun p hp => ?_⟩
  · obtain ⟨hfree, c', hc', hset⟩ := h.aside x hx
    exact ⟨hfree.congr rfl, c', List.mem_append_left _ hc', hset⟩
  · exact (h.litter p hp).imp (·.after c failures) fun ⟨x, hx, hheld⟩ => ⟨x, hx, hheld.congr rfl⟩

theorem loosen {firm : Path → Prop} (hfirm : ∀ p, firm p → k.firm p) :
    w.Accounted { k with firm := firm } hand := by
  refine ⟨⟨h.bounded.tree.loosen hfirm, h.bounded.staged, h.bounded.trash, h.bounded.promoted⟩,
    h.promoted, h.staged, h.trash, fun x hx => ?_, fun p hp => ?_⟩
  · exact (h.aside x hx).imp_left (·.congr rfl)
  · exact (h.litter p hp).imp_right fun ⟨x, hx, hheld⟩ => ⟨x, hx, hheld.congr rfl⟩

theorem release (hgone : ∀ x ∈ hand, ∀ p, w.tree.Litter p → k.Held w.tree x.1 x.2 p → k.Lost p) :
    w.Accounted k [] := by
  refine ⟨h.bounded, h.promoted, h.staged, h.trash, h.aside, fun p hp => ?_⟩
  obtain hl | ⟨x, hx, hheld⟩ := h.litter p hp
  · exact .inl hl
  · obtain hx | hx := List.mem_append.1 hx
    · exact .inr ⟨x, by rwa [List.append_nil], hheld⟩
    · exact .inl (hgone x hx p hp hheld)

variable (hfirm : k.Firm)
include hfirm

theorem step {hand' : List (Path × Path)} (hkeeps : Keeps [] k.firm k.start w.tree t)
    (hdirs : w.trash = [] ∨ ∀ p, t.get? p = some .dir → w.tree.get? p = some .dir)
    (hlitter : ∀ p, t.Litter p → k.Lost p ∨ (∃ x ∈ hand', k.Held t x.1 x.2 p) ∨
      ∃ x ∈ w.staged ++ w.trash, k.Held w.tree x.1 x.2 p) :
    Accounted k hand' { w with tree := t } := by
  refine ⟨h.bounded.step hkeeps, h.promoted, h.staged, h.trash, fun x hx => ?_, fun p hp => ?_⟩
  · obtain hempty | hdirs := hdirs
    · exact absurd (hempty ▸ hx : x ∈ []) List.not_mem_nil
    · obtain ⟨hfree, hset⟩ := h.aside x hx
      exact ⟨hfree.keeps h.bounded.tree hfirm hkeeps hdirs, hset⟩
  · refine (hlitter p hp).imp_right ?_
    rintro (⟨x, hx, hheld⟩ | ⟨x, hx, hheld⟩)
    · exact ⟨x, List.mem_append_right _ hx, hheld⟩
    · exact ⟨x, List.mem_append_left _ hx, hheld.keeps h.bounded.tree hfirm hkeeps⟩

theorem quietly (hkeeps : Keeps [] k.firm k.start w.tree t)
    (hdirs : w.trash = [] ∨ ∀ p, t.get? p = some .dir → w.tree.get? p = some .dir)
    (hlitter : ∀ p, t.Litter p → w.tree.Litter p) : Accounted k hand { w with tree := t } := by
  refine h.step hfirm hkeeps hdirs fun p hp => (h.litter p (hlitter p hp)).imp_right ?_
  rintro ⟨x, hx, hheld⟩
  obtain hx | hx := List.mem_append.1 hx
  · exact .inr ⟨x, hx, hheld⟩
  · exact .inl ⟨x, hx, hheld.keeps h.bounded.tree hfirm hkeeps⟩

theorem behaves (hb : k.Behaves w.tree t) : Accounted k hand { w with tree := t } :=
  h.quietly hfirm hb.keeps (.inr hb.tidy.dirs) hb.tidy.litter

end Steps

section Ledgers

variable (h : w.Accounted k [])
include h

theorem takeStaged (hs : w.staged.lookup dest = some temp) :
    Accounted k [(dest, temp)] { w with staged := w.staged.remove dest } := by
  refine ⟨⟨h.bounded.tree, fun x hx => h.bounded.staged x (Ledger.mem_remove.1 hx).1,
    h.bounded.trash, h.bounded.promoted⟩, h.promoted, h.staged.remove dest, h.trash, h.aside,
    fun p hp => (h.litter p hp).imp_right fun ⟨x, hx, hheld⟩ => ⟨x, ?_, hheld⟩⟩
  rw [List.append_nil] at hx
  obtain hx | hx := List.mem_append.1 hx
  · obtain rfl | hx := h.staged.eq_or_mem_remove (Ledger.mem_of_lookup hs) hx
    · exact List.mem_append_right _ (List.mem_singleton_self _)
    · exact List.mem_append_left _ (List.mem_append_left _ hx)
  · exact List.mem_append_left _ (List.mem_append_right _ hx)

theorem takeTrash (hs : w.trash.lookup dest = some temp) :
    Accounted k [(dest, temp)] { w with trash := w.trash.remove dest } := by
  refine ⟨⟨h.bounded.tree, h.bounded.staged, fun x hx => h.bounded.trash x (Ledger.mem_remove.1 hx).1,
    h.bounded.promoted⟩, h.promoted, h.staged, h.trash.remove dest,
    fun x hx => h.aside x (Ledger.mem_remove.1 hx).1,
    fun p hp => (h.litter p hp).imp_right fun ⟨x, hx, hheld⟩ => ⟨x, ?_, hheld⟩⟩
  rw [List.append_nil] at hx
  obtain hx | hx := List.mem_append.1 hx
  · exact List.mem_append_left _ (List.mem_append_left _ hx)
  · obtain rfl | hx := h.trash.eq_or_mem_remove (Ledger.mem_of_lookup hs) hx
    · exact List.mem_append_right _ (List.mem_singleton_self _)
    · exact List.mem_append_left _ (List.mem_append_right _ hx)

end Ledgers

theorem strand (h : w.Accounted k [(c.dest, temp)]) (hmem : c ∈ k.targets)
    {failures : List (Text × Failure)}
    (hs : c.Strands k.backup (k.tried ++ [c]) (k.failures ++ failures) temp) :
    w.Accounted (k.after c failures) [] := by
  refine (h.after c failures).release fun x hx p _ hheld => ?_
  obtain rfl := List.mem_singleton.1 hx
  exact hheld.lost h.bounded.tree hmem rfl hs

theorem mem_failures (k : Batch) (f : Text × Failure) : f ∈ k.failures ++ [f] :=
  List.mem_append_right _ (List.mem_singleton_self f)

/-- What is set aside for a change is tracked from then on. What was set aside at the same place before
is forgotten. -/
theorem putAside (h : w.Accounted k [(c.dest, temp)]) (hmem : c ∈ k.targets) (hset : c.DeletesUnknown)
    (hfree : k.Free w.tree c.dest) (hplaced : Placed [] k.start w.tree temp) :
    Accounted (k.after c []) [] { w with trash := w.trash.set c.dest temp } := by
  have hafter := h.after c []
  refine ⟨⟨h.bounded.tree, h.bounded.staged, fun x hx => ?_, h.bounded.promoted⟩, h.promoted, h.staged,
    h.trash.set c.dest temp, fun x hx => ?_, fun p hp => ?_⟩
  · obtain rfl | hx := Ledger.mem_of_mem_set hx
    · exact hplaced
    · exact h.bounded.trash x hx
  · obtain rfl | hx := Ledger.mem_of_mem_set hx
    · exact ⟨hfree.congr rfl, c, List.mem_append_right _ (List.mem_singleton_self c), hmem, hset, rfl⟩
    · exact hafter.aside x hx
  · obtain hl | ⟨x, hx, hheld⟩ := hafter.litter p hp
    · exact .inl hl
    · simp only [List.append_assoc, List.mem_append, List.mem_singleton] at hx
      obtain hx | hx | rfl := hx
      · exact .inr ⟨x, by simp [hx], hheld⟩
      · by_cases hdest : x.1 = c.dest
        · obtain ⟨-, c', hc', hmem', hset', hdest'⟩ := h.aside x hx
          have hboth : [c', c].Sublist (k.tried ++ [c]) :=
            (List.singleton_sublist.2 hc').append (List.Sublist.refl [c])
          exact .inl (hheld.lost hafter.bounded.tree hmem' hdest'
            (.forgotten hboth (hdest.symm.trans hdest'.symm) hset' hset))
        · exact .inr ⟨x, by simp [Ledger.mem_set_of_ne hx hdest], hheld⟩
      · exact .inr ⟨(c.dest, temp), by simp [Ledger.mem_set_self], hheld⟩

theorem rename (h : w.Accounted k [(c.dest, temp)]) (hk : k.Orderly) (hmem : c ∈ k.targets)
    (htemp : Placed [] k.start w.tree temp) :
    (call (FileTree.rename temp c.dest)).Ends w (fun _ => Accounted k [])
      (fun e w' => w' = w ∧
        (e = .call (.aborted .nullCharacter) ∨ ∃ code, e = .call (.between code temp c.dest))) := by
  rw [ends_call]
  apply (Target.rename_behaves h.bounded.tree (hk.target c hmem) hk.links (hk.entry c hmem) htemp).mono
  · rintro _ t ⟨hb, hgone⟩
    refine h.step hk.way hb.keeps (.inr hb.tidy.dirs) fun p hp => ?_
    refine (h.litter p (hb.tidy.litter p hp)).imp_right fun ⟨x, hx, hheld⟩ => .inr ⟨x, ?_, hheld⟩
    obtain hx | hx := List.mem_append.1 hx
    · exact hx
    · obtain rfl := List.mem_singleton.1 hx
      exact absurd hp (hgone p hheld.spot_entry)
  · rintro e t ⟨rfl, he | ⟨code, he⟩⟩
    · exact ⟨rfl, .inl (congrArg _ he)⟩
    · exact ⟨rfl, .inr ⟨code, congrArg _ he⟩⟩

theorem makeTemp (h : w.Accounted k []) (hfirm : k.Firm) (hmem : c ∈ k.targets)
    (hplain : Path.Plain c.dest) (reserved : List Name) (kind : TempKind) (bytes : ByteArray) :
    (call (FileTree.makeTemp reserved c.dest.parent kind bytes)).Ends w
      (fun temp w' => ∃ t, w' = { w with tree := t } ∧ w'.Accounted k [(c.dest, temp)] ∧
        Placed [] k.start t temp ∧
        ∃ dir n b, t.Opens maxLinks [] c.dest.parent dir ∧ temp = c.dest.parent ++ [tempName kind n] ∧
          t.get? (dir ++ [tempName kind n]) = some (.file b))
      (fun _ w' => w' = w) := by
  rw [ends_call]
  have hkeeps := makeTemp_keeps h.bounded.tree hplain.parent (inside_nil _ _) reserved kind bytes
  apply (hkeeps.and (makeTemp_effect w.tree reserved c.dest.parent kind bytes)).mono
  · rintro temp t ⟨⟨hkeeps, hplaced⟩, dir, n, hdraws⟩
    obtain ⟨slash, hlocate⟩ := hdraws.locate
    obtain ⟨b, rfl⟩ := hdraws.tree
    obtain rfl := hdraws.temp
    have hopens : w.tree.Opens maxLinks [] c.dest.parent dir := locate_opens hlocate hdraws.get?
    have hput := get?_put w.tree (p := dir ++ [tempName kind n]) (by simp) (.file b)
    have hopens' := hopens.keeps h.bounded.tree hkeeps (hfirm c hmem)
    refine ⟨_, rfl, h.step hfirm hkeeps (.inr fun p hp => ?_) fun p hp => ?_, hplaced, dir, n, b,
      hopens', rfl, by rw [hput, if_pos rfl]⟩
    · rw [hput] at hp
      split at hp
      · cases hp
      · exact hp
    · by_cases hnew : p = dir ++ [tempName kind n]
      · refine .inr (.inl ⟨_, List.mem_singleton_self _, ⟨c, hmem, rfl⟩,
          ⟨dir, kind, n, hdraws.lt, rfl, hnew, hopens'⟩, ?_, ?_⟩)
        · have hname := hasNull_tempName kind n
          have hparent := hdraws.hasNull
          simp only [Path.hasNull, List.any_append, Bool.or_eq_false_iff] at hname hparent ⊢
          exact ⟨hparent, hname⟩
        · rw [tooLong_concat_congr (n := tempName kind 0), hdraws.short]
          rw [size_tempName kind hdraws.lt, size_tempName kind (by decide)]
      · obtain ⟨b', hb'⟩ := hp.file
        rw [hput, if_neg hnew] at hb'
        refine (h.litter p ⟨hp.name, b', hb'⟩).imp_right ?_
        rintro ⟨x, hx, hheld⟩
        rw [List.append_nil] at hx
        exact .inr ⟨x, hx, hheld⟩
  · exact fun _ _ hsame => by rw [hsame.2]

theorem putStaged (h : w.Accounted k [(c.dest, temp)]) (hn : w.staged.lookup c.dest = none)
    (hplaced : Placed [] k.start w.tree temp) :
    Accounted k [] { w with staged := w.staged.set c.dest temp } := by
  refine ⟨⟨h.bounded.tree, fun x hx => ?_, h.bounded.trash, h.bounded.promoted⟩, h.promoted,
    h.staged.set c.dest temp, h.trash, h.aside, fun p hp => ?_⟩
  · obtain rfl | hx := Ledger.mem_of_mem_set hx
    · exact hplaced
    · exact h.bounded.staged x hx
  · refine (h.litter p hp).imp_right fun ⟨x, hx, hheld⟩ => ⟨x, ?_, hheld⟩
    simp only [List.append_assoc, List.mem_append, List.mem_singleton] at hx
    obtain hx | hx | rfl := hx
    · have hne : x.1 ≠ c.dest := by
        have hkeys := List.lookup_eq_none_iff.1 hn x hx
        exact fun he => (bne_iff_ne.1 hkeys) he.symm
      simp [Ledger.mem_set_of_ne hx hne]
    · simp [hx]
    · simp [Ledger.mem_set_self]

section Staging

variable (hfirm : ∀ p, k.firm p) (hmem : c ∈ k.targets) (hbound : c.Bound k.start [] k.backup)
  (htrash : w.trash = [])
include hfirm hmem hbound htrash

theorem stage (h : w.Accounted k []) :
    (stage c).Ends w (fun _ w' => w'.Accounted k [] ∧ w'.trash = [])
      (fun _ w' => w'.Accounted k [] ∧ w'.trash = []) := by
  have hway : k.Firm := fun _ _ q _ => hfirm q
  simp only [Workspace.stage, ends_bind, ends_get]
  split
  · exact ⟨h, htrash⟩
  · split
    · exact ⟨h, htrash⟩
    · next hstaged =>
      have hstaged := Option.not_isSome_iff_eq_none.1 hstaged
      simp only [ends_bind, ends_modify]
      rw [ends_call]
      have hkeeps := makeDirs_keeps h.bounded.tree hfirm hbound.plain.parent rfl
        (inside_nil _ _)
      apply (hkeeps.and (makeDirs_litter w.tree c.dest.parent)).mono
      · rintro _ t ⟨hkeeps, hlitter⟩
        have h := h.quietly hway hkeeps (.inl htrash) hlitter
        apply (h.makeTemp hway hmem hbound.plain _ _ _).mono
        · rintro temp _ ⟨t', rfl, hhand, hplaced, -⟩
          exact ⟨hhand.putStaged hstaged hplaced, htrash⟩
        · rintro _ _ rfl
          exact ⟨h, htrash⟩
      · rintro _ t ⟨hkeeps, hlitter⟩
        exact ⟨h.quietly hway hkeeps (.inl htrash) hlitter, htrash⟩

end Staging

section Promotion

variable (h : w.Accounted k []) (hk : k.Orderly) (hmem : c ∈ k.targets)
include h hk hmem

theorem promoteWrite :
    (promoteWrite k.backup c).Ends w (fun _ => Accounted (k.after c []) [])
      (fun e w' => e.abort? = none → w'.Accounted (k.after c [(c.path, e)]) []) := by
  simp only [Workspace.promoteWrite, ends_bind, ends_get]
  split
  · exact fun _ => h.after c _
  · split
    · exact fun _ => h.after c _
    · next temp hs =>
      have htemp := h.bounded.staged _ (Ledger.mem_of_lookup hs)
      have hhand := h.takeStaged hs
      simp only [ends_bind, ends_set]
      rw [ends_call]
      apply ((ends_self (Backup.write k.backup c) w.tree).and
        (Backup.write_behaves h.bounded.tree (hk.target c hmem) hk.links)).mono
      · rintro _ t ⟨-, hb⟩
        have hhand := hhand.behaves hk.way hb
        apply (hhand.rename hk hmem (htemp.mono hb.keeps.noLink)).mono
        · exact fun _ _ h => h.after c []
        · rintro _ _ ⟨rfl, rfl | ⟨code, rfl⟩⟩ hna
          · cases hna
          · exact hhand.strand hmem (.promoted (mem_failures k _))
      · rintro e t ⟨he, rfl⟩ _
        exact hhand.strand hmem (.backedUp he (mem_failures k _))

theorem setAside (hset : c.DeletesUnknown) :
    (setAside c.dest).Ends w (fun _ => Accounted (k.after c []) [])
      (fun e w' => e.abort? = none → w'.Accounted (k.after c [(c.path, e)]) []) := by
  have hbound := (hk.target c hmem).bound
  have ha : c.action ≠ .create := by simp [hset.1]
  simp only [Workspace.setAside, ends_bind, ends_get, ends_modify]
  apply (h.makeTemp hk.way hmem hbound.plain w.reserved .setAside .empty).mono
  · rintro temp w₁ ⟨t, rfl, hhand, hplaced, dir, n, b, hopens, rfl, hfile⟩
    have hname := (Path.plain_cons.1 (plain_tempName .setAside n)).1
    rw [ends_call]
    apply (Target.rename_aside hk.way hhand.bounded.tree hmem hbound ha hopens hname hplaced
      hfile).mono
    · rintro _ t' ⟨hb, hfree⟩
      have hhand := hhand.behaves hk.way hb
      exact hhand.putAside hmem hset hfree (hplaced.mono hb.keeps.noLink)
    · rintro _ _ ⟨rfl, rfl | ⟨code, rfl⟩⟩ hna
      · cases hna
      · exact hhand.strand hmem (.setAside (mem_failures k _))
  · rintro e w' rfl _
    exact h.after c _

theorem promoteDelete (ha : c.action = .delete) :
    (promoteDelete c).Ends w (fun _ => Accounted (k.after c []) [])
      (fun e w' => e.abort? = none → w'.Accounted (k.after c [(c.path, e)]) []) := by
  simp only [Workspace.promoteDelete, ends_bind, ends_get]
  split
  · split
    · rw [ends_call]
      apply (Target.removeFile_behaves h.bounded.tree (hk.target c hmem) (hk.entry c hmem)).mono
      · exact fun _ _ hb => (h.behaves hk.way hb).after c []
      · rintro e t rfl _
        exact h.after c _
    · next hformer => exact h.setAside hk hmem ⟨ha, by simpa using hformer⟩
  · exact h.after c []

/-- Whatever comes of a change, all temporary files are accounted for. -/
theorem promote (failed : List Text) :
    (Workspace.promote k.backup failed c).Ends w (fun _ => Accounted (k.after c []) [])
      (fun e w' => e.abort? = none → w'.Accounted (k.after c [(c.path, e)]) []) := by
  have hdone {w : Workspace} (h : w.Accounted (k.after c []) []) :
      Accounted (k.after c []) [] { w with promoted := w.promoted ++ [c] } :=
    ⟨⟨h.bounded.tree, h.bounded.staged, h.bounded.trash, List.forall_mem_append.2
        ⟨h.bounded.promoted, List.forall_mem_singleton.2 (hk.target c hmem).bound⟩⟩,
      List.forall_mem_append.2 ⟨h.promoted, List.forall_mem_singleton.2 hmem⟩, h.staged, h.trash,
      h.aside, h.litter⟩
  unfold Workspace.promote
  split
  · exact h.after c []
  · split
    · next ha =>
      rw [ends_bind]
      apply (h.promoteDelete hk hmem ha).mono
      · exact fun _ _ h => hdone h
      · exact fun _ _ h => h
    · rw [ends_bind]
      apply (h.promoteWrite hk hmem).mono
      · exact fun _ _ h => hdone h
      · exact fun _ _ h => h

theorem undo : (undo c).Ends w (fun _ => Accounted k []) (fun _ => Accounted k []) := by
  have hwrite {x : Call Unit} (hx : x.Ends w.tree (fun _ t => k.Behaves w.tree t)
      (fun _ t => t = w.tree)) :
      (call x).Ends w (fun _ => Accounted k []) (fun _ => Accounted k []) := by
    rw [ends_call]
    apply hx.mono
    · exact fun _ _ hb => h.behaves hk.way hb
    · rintro _ _ rfl
      exact h
  simp only [Workspace.undo, ends_bind, ends_get]
  split
  · split
    · exact hwrite (Target.removeFile_behaves h.bounded.tree (hk.target c hmem) (hk.entry c hmem))
    · exact h
  · split
    · next temp ht =>
      have htrash := Ledger.mem_of_lookup ht
      have htemp := h.bounded.trash _ htrash
      have hfree := (h.aside _ htrash).1
      have hhand := h.takeTrash ht
      simp only [ends_bind, ends_set]
      apply ((ends_self (call (FileTree.rename temp c.dest)) _).and (hhand.rename hk hmem htemp)).mono
      · exact fun _ _ h => h.2
      · rintro e w' ⟨he, rfl, -⟩
        refine hhand.release fun x hx p hp hheld => ?_
        obtain rfl := List.mem_singleton.1 hx
        -- The file could have been moved to where it was taken from.
        obtain ⟨b, hb⟩ := hp.file
        obtain ⟨s, hs, hdir⟩ := hfree.spot_entry
        obtain ⟨t, ht⟩ := rename_ok ⟨hheld.hasNull, hfree.hasNull⟩ hheld.spot_entry hb hs hdir
        simp [call, ht] at he
    · split
      · exact hwrite (Target.writeFile_behaves h.bounded.tree (hk.target c hmem) hk.links _)
      · exact h

end Promotion

theorem rollback (h : w.Accounted k []) (hk : k.Orderly) : w.rollback.state.Accounted k [] := by
  have hpromoted := h.promoted
  refine Pass.run_keeps Target.path (fun _ => Workspace.undo) .bestEffort [] (Accounted k [])
    (fun _ c hc w h => ?_) h
  exact h.undo hk (hpromoted c (List.mem_reverse.1 hc))

end Accounted

section Discarding

variable (hc : Confined [] k.firm k.start t) (htemp : Placed [] k.start t temp)
include hc htemp

theorem discardFile_behaves : k.Behaves t (discardFile t temp) := by
  refine ⟨discardFile_keeps hc htemp, ?_⟩
  have hremove := removeFile_effect t temp
  unfold discardFile
  split
  · split
    · next hr => exact (hremove.of_ok hr).tidy
    · next hr => exact hremove.of_error hr ▸ .refl t
  · exact .refl t

theorem not_litter_discardFile (h : k.Held t dest temp p) : ¬(discardFile t temp).Litter p := by
  intro hp
  have hlitter := (discardFile_behaves hc htemp).tidy.litter p hp
  obtain ⟨b, hb⟩ := hlitter.file
  have hremove : removeFile temp t = .ok () (t.erase p) := by
    simp [removeFile, callSpot_eq_ok.2 ⟨h.hasNull, h.spot_entry⟩, hb]
  obtain ⟨b', hb'⟩ := hp.file
  simp only [discardFile, h.has hlitter, if_true, hremove] at hb'
  rw [get?_erase t (ne_nil_of_get? hb nofun), if_pos rfl] at hb'
  cases hb'

end Discarding

theorem discardFiles_lost (hfirm : k.Firm) {tracked : List (Path × Path)}
    (hc : Confined [] k.firm k.start t) (hplaced : ∀ x ∈ tracked, Placed [] k.start t x.2)
    (hlitter : ∀ p, t.Litter p → k.Lost p ∨ ∃ x ∈ tracked, k.Held t x.1 x.2 p) :
    ∀ p, ((tracked.map (·.2)).foldl discardFile t).Litter p → k.Lost p := by
  induction tracked generalizing t with
  | nil =>
    intro p hp
    exact (hlitter p hp).resolve_right fun ⟨_, hx, _⟩ => by cases hx
  | cons x tracked ih =>
    obtain ⟨hx, htracked⟩ := List.forall_mem_cons.1 hplaced
    have hb := discardFile_behaves hc hx
    refine ih hb.keeps.confined (fun x hx => (htracked x hx).mono hb.keeps.noLink) fun p hp => ?_
    refine (hlitter p (hb.tidy.litter p hp)).imp_right fun ⟨y, hy, hheld⟩ => ?_
    obtain rfl | hy := List.mem_cons.1 hy
    · exact absurd hp (not_litter_discardFile hc hx hheld)
    · exact ⟨y, hy, hheld.keeps hc hfirm hb.keeps⟩

/-- Once the tracked files are discarded, only those that are lost are left. -/
theorem Accounted.discard (h : w.Accounted k []) (hfirm : k.Firm) :
    ∀ p, w.discard.Litter p → k.Lost p := by
  refine discardFiles_lost hfirm h.bounded.tree (fun x hx => ?_) fun p hp => ?_
  · obtain hx | hx := List.mem_append.1 hx
    · exact h.bounded.staged x hx
    · exact h.bounded.trash x hx
  · have hlitter := h.litter p hp
    rwa [List.append_nil] at hlitter

end Workspace

end Emend
