import Emend.Proofs.Commit.Stage

namespace Emend

open EStateM FileTree

namespace FileTree

def file? (t : FileTree) (p : Path) : Option ByteArray :=
  match t.find p with
  | .ok (.file b) => some b
  | _ => none

variable {t t' : FileTree} {p : Path} {b : ByteArray}

theorem file?_eq_some_iff_find : t.file? p = some b ↔ t.find p = .ok (.file b) := by
  unfold file?
  split
  · next b' h => simp [h]
  · next h => simpa using h b

section

variable (hl : t.LinkFree) (hroot : t.Rooted) (hp : Path.Plain p)
include hl hroot hp

theorem file?_eq_some : t.file? p = some b ↔ Fits p ∧ t.get? p = some (.file b) := by
  rw [file?_eq_some_iff_find, find_eq_ok hl hp]
  constructor
  · rintro ⟨hfits, -, hb⟩
    exact ⟨hfits, hb⟩
  · rintro ⟨hfits, hb⟩
    exact ⟨hfits, hroot.holds (by simp [hb]), hb⟩

theorem file?_congr (hl' : t'.LinkFree) (hroot' : t'.Rooted) (h : t'.get? p = t.get? p) :
    t'.file? p = t.file? p := by
  ext b
  rw [file?_eq_some hl' hroot' hp, file?_eq_some hl hroot hp, h]

theorem get?_eq_none_of_file? (hfits : Fits p) (h : t.file? p = none)
    (hd : t.get? p ≠ some .dir) : t.get? p = none := by
  cases he : t.get? p with
  | none => rfl
  | some e =>
    cases e with
    | file b =>
      rw [(file?_eq_some hl hroot hp).2 ⟨hfits, he⟩] at h
      cases h
    | dir => exact absurd he hd
    | link target => exact absurd he (hl p target)

theorem exists_file?_of_has (h : t.has p = true) (hd : t.get? p ≠ some .dir) :
    ∃ b, t.file? p = some b := by
  obtain ⟨hfits, -, hsome⟩ := (has_iff hl hp).1 h
  cases hf : t.file? p with
  | some b => exact ⟨b, rfl⟩
  | none =>
    rw [get?_eq_none_of_file? hl hroot hp hfits hf hd] at hsome
    cases hsome

end

end FileTree

namespace Target

def made (c : Target) : Option ByteArray := if c.Writes then some c.bytes else none

theorem file?_eq_made {t : FileTree} {c : Target} (hl : t.LinkFree) (hroot : t.Rooted)
    (hp : Path.Plain c.dest) (hfits : c.Writes → Fits c.dest)
    (hget : Fits c.dest → t.get? c.dest = c.made.map .file) : t.file? c.dest = c.made := by
  ext b
  rw [file?_eq_some hl hroot hp]
  constructor
  · rintro ⟨hf, hb⟩
    rw [hget hf] at hb
    simpa using hb
  · intro hmade
    have hw : c.Writes := by
      by_cases hw : c.Writes
      · exact hw
      · simp [made, hw] at hmade
    rw [hget (hfits hw), hmade]
    exact ⟨hfits hw, rfl⟩

end Target

namespace Workspace

variable {t₀ : FileTree} {dests : List Path} {v w : Workspace} {c : Target} {cs : List Target}

def Tracks (w : Workspace) (p : Path) : Prop :=
  (∃ x ∈ w.staged, x.2 = p) ∨ ∃ x ∈ w.trash, x.2 = p

instance (w : Workspace) (p : Path) : Decidable (w.Tracks p) :=
  inferInstanceAs (Decidable (_ ∨ _))

/-- What is at a path, the temporary files of the commit not counted. -/
def visible (w : Workspace) (p : Path) : Option Entry := if w.Tracks p then none else w.tree.get? p

theorem visible_congr {p : Path} (htracks : v.Tracks p ↔ w.Tracks p)
    (htree : v.tree.get? p = w.tree.get? p) : v.visible p = w.visible p := by
  simp only [visible, htracks, htree]

theorem visible_of_tracks {p : Path} (h : w.Tracks p) : w.visible p = none := if_pos h

theorem visible_eq_none {p : Path} (h : w.tree.get? p = none) : w.visible p = none := by
  simp [visible, h]

/-- The tree is what it was but for the places of changes, and what is set aside is where the workspace
says. -/
structure Steady (t₀ : FileTree) (dests : List Path) (w : Workspace) : Prop where
  linkFree : w.tree.LinkFree
  rooted : w.tree.Rooted
  reserves : ∀ d ∈ dests, ∀ n ∈ d, n ∈ w.reserved
  kept : ∀ p ∉ dests, t₀.KeptAt w.tree p
  staged : ∀ x ∈ w.staged, Tracked t₀ dests .staged x.2
  trash : ∀ x ∈ w.trash, Tracked t₀ dests .setAside x.2
  held : ∀ x ∈ w.trash, ∃ b, w.tree.get? x.2 = some (.file b)

theorem Prepared.steady (h : Prepared t₀ dests cs w) : Steady t₀ dests w where
  linkFree := h.linkFree
  rooted := h.rooted
  reserves := h.reserves
  kept p _ := h.keptAt p
  staged := h.staged
  trash := by simp [h.trash]
  held := by simp [h.trash]

namespace Steady

variable {kind : TempKind} {temp : Path} (h : Steady t₀ dests w)
include h

theorem tracked (hd : w.tree.Drawn w.reserved kind temp) : Tracked t₀ dests kind temp := by
  obtain ⟨dir, n, he, -⟩ := hd.name
  have hapart : ∀ p ∈ dests, ¬temp <+: p := fun p hp => hd.not_isPrefix (h.reserves p hp)
  have hmem : temp ∉ dests := fun hmem => hapart temp hmem (List.prefix_refl temp)
  exact ⟨⟨dir, n, he⟩, hd.plain, (h.kept temp hmem).get?_eq_none hd.free, hapart⟩

theorem exists_tracked {x : Path × Path} (hx : x ∈ w.staged ++ w.trash) :
    ∃ kind, Tracked t₀ dests kind x.2 := by
  obtain hx | hx := List.mem_append.1 hx
  · exact ⟨_, h.staged x hx⟩
  · exact ⟨_, h.trash x hx⟩

theorem plain_tracked {x : Path × Path} (hx : x ∈ w.staged ++ w.trash) : Path.Plain x.2 := by
  obtain ⟨kind, ht⟩ := h.exists_tracked hx
  exact ht.plain

theorem visible_dest {d : Path} (hd : d ∈ dests) : w.visible d = w.tree.get? d := by
  apply if_neg
  rintro (⟨x, hx, rfl⟩ | ⟨x, hx, rfl⟩)
  · exact (h.staged x hx).ne_dest hd rfl
  · exact (h.trash x hx).ne_dest hd rfl

theorem staged_ne_trash {x y : Path × Path} (hx : x ∈ w.staged) (hy : y ∈ w.trash) : x.2 ≠ y.2 := by
  intro he
  have hkind := (he ▸ h.staged x hx).kind_eq (h.trash y hy)
  cases hkind

theorem drawn_ne_trash (hd : w.tree.Drawn w.reserved kind temp) {x : Path × Path} (hx : x ∈ w.trash) :
    x.2 ≠ temp := by
  rintro rfl
  obtain ⟨b, hb⟩ := h.held x hx
  rw [hd.free] at hb
  cases hb

theorem grows {p : Path} {t : FileTree} (hg : w.tree.GrowsTo p t) (hroot : t.Rooted) :
    Steady t₀ dests { w with tree := t } where
  linkFree := hg.linkFree h.linkFree
  rooted := hroot
  reserves := h.reserves
  kept q hq := (h.kept q hq).grows hg
  staged := h.staged
  trash := h.trash
  held x hx := by
    obtain ⟨b, hb⟩ := h.held x hx
    exact ⟨b, hg.get?_eq_some hb⟩

theorem put (hd : w.tree.Drawn w.reserved kind temp) (hholds : w.tree.Holds temp) (b : ByteArray) :
    Steady t₀ dests { w with tree := w.tree.put temp (.file b) } := by
  have htemp := h.tracked hd
  constructor
  case linkFree => exact h.linkFree.put (ne_nil_of_get? hd.free nofun) nofun
  case rooted => exact h.rooted.put_of_holds hholds (by simp [hd.free])
  case reserves => exact h.reserves
  case kept =>
    intro p hp
    by_cases he : p = temp
    · subst he
      exact .inr ⟨htemp.absent, .inr ⟨htemp.isTemp, b, hd.get?_put_self⟩⟩
    · exact (h.kept p hp).congr (hd.get?_put_of_ne he)
  case staged => exact h.staged
  case trash => exact h.trash
  case held =>
    intro x hx
    obtain ⟨b', hb'⟩ := h.held x hx
    exact ⟨b', (hd.get?_put_of_ne (h.drawn_ne_trash hd hx)).trans hb'⟩

section Promoted

variable {b : ByteArray} {t : FileTree} (hc : c.dest ∈ dests)
include hc

theorem write (hs : w.staged.lookup c.dest = some temp) (ht : w.tree.Moved temp c.dest b t) :
    Steady t₀ dests { w with tree := t, staged := w.staged.remove c.dest } := by
  have htemp := h.staged _ (Ledger.mem_of_lookup hs)
  constructor
  case linkFree => exact ht.linkFree h.linkFree
  case rooted => exact ht.rooted h.rooted
  case reserves => exact h.reserves
  case kept =>
    intro p hp
    have hpc : p ≠ c.dest := fun he => hp (he ▸ hc)
    by_cases hpt : p = temp
    · subst hpt
      exact .inl ((ht.get?_source (htemp.ne_dest hc)).trans htemp.absent.symm)
    · exact (h.kept p hp).congr (ht.get?_of_ne hpt hpc)
  case staged => exact fun x hx => h.staged x (Ledger.mem_remove.1 hx).1
  case trash => exact h.trash
  case held =>
    intro x hx
    obtain ⟨b', hb'⟩ := h.held x hx
    have hxt : x.2 ≠ temp := fun he => h.staged_ne_trash (Ledger.mem_of_lookup hs) hx he.symm
    exact ⟨b', (ht.get?_of_ne hxt ((h.trash x hx).ne_dest hc)).trans hb'⟩

theorem remove (hb : w.tree.get? c.dest = some (.file b)) :
    Steady t₀ dests { w with tree := w.tree.erase c.dest } := by
  have hdir := ne_dir_of_get? hb
  have herase := get?_erase w.tree (ne_nil_of_get? rfl hdir)
  constructor
  case linkFree => exact h.linkFree.erase (ne_nil_of_get? rfl hdir)
  case rooted => exact h.rooted.erase hdir
  case reserves => exact h.reserves
  case kept =>
    intro p hp
    have hpc : p ≠ c.dest := fun he => hp (he ▸ hc)
    exact (h.kept p hp).congr ((herase p).trans (if_neg hpc))
  case staged => exact h.staged
  case trash => exact h.trash
  case held =>
    intro x hx
    rw [herase, if_neg ((h.trash x hx).ne_dest hc)]
    exact h.held x hx

theorem setAside (hd : w.tree.Drawn w.reserved .setAside temp)
    (ht : (w.tree.put temp (.file .empty)).Moved c.dest temp b t) :
    Steady t₀ dests { w with tree := t, trash := w.trash.set c.dest temp } := by
  have htemp := h.tracked hd
  have hsame {p : Path} (hpc : p ≠ c.dest) (hpt : p ≠ temp) : t.get? p = w.tree.get? p :=
    (ht.get?_of_ne hpc hpt).trans (hd.get?_put_of_ne hpt)
  have hholds : w.tree.Holds temp := by
    intro q hq hqt
    have hdir := ht.reaches_target.2.2 q hq hqt
    rwa [hd.get?_put_of_ne hqt] at hdir
  have hput := h.put hd hholds .empty
  constructor
  case linkFree => exact ht.linkFree hput.linkFree
  case rooted => exact ht.rooted hput.rooted
  case reserves => exact h.reserves
  case kept =>
    intro p hp
    have hpc : p ≠ c.dest := fun he => hp (he ▸ hc)
    by_cases hpt : p = temp
    · subst hpt
      exact .inr ⟨htemp.absent, .inr ⟨htemp.isTemp, b, ht.get?_target⟩⟩
    · exact (h.kept p hp).congr (hsame hpc hpt)
  case staged => exact h.staged
  case trash =>
    intro x hx
    obtain rfl | hx := Ledger.mem_of_mem_set hx
    · exact htemp
    · exact h.trash x hx
  case held =>
    intro x hx
    obtain rfl | hx := Ledger.mem_of_mem_set hx
    · exact ⟨b, ht.get?_target⟩
    · obtain ⟨b', hb'⟩ := h.held x hx
      exact ⟨b', (hsame ((h.trash x hx).ne_dest hc) (h.drawn_ne_trash hd hx)).trans hb'⟩

end Promoted

theorem stages (hs : Stages w c v) : Steady t₀ dests v := by
  cases hs with
  | skip ha => exact h
  | @write t temp ha hs ho hroom hd htemp =>
    have hgrown := h.grows ho.grows (ho.rooted h.rooted)
    have hput := hgrown.put hd (hroom.reaches_drawn hd htemp).2.2 c.bytes
    refine { hput with staged := fun x hx => ?_ }
    obtain rfl | hx := Ledger.mem_of_mem_set hx
    · exact hgrown.tracked hd
    · exact h.staged x hx

theorem unstaged {e : Failure} (hu : Unstaged w c e v) : Steady t₀ dests v := by
  rw [hu.eq]
  exact h.grows hu.grows (hu.rooted h.rooted)

theorem halts (hh : Halts w c v) : Steady t₀ dests v := by
  cases hh with
  | same => exact h
  | unstaged => exact { h with staged := fun x hx => h.staged x (Ledger.mem_remove.1 hx).1 }
  | drawn hd hholds => exact h.put hd hholds .empty

theorem promote_steps (hp : Path.Plain c.dest) (hc : c.dest ∈ dests) (failed : List Text) :
    (Workspace.promote none failed c).Ends w
      (fun _ w' => c.path ∈ failed ∧ w' = w ∨
        c.path ∉ failed ∧ ∃ v, Promotes w c v ∧ w' = { v with promoted := v.promoted ++ [c] })
      (fun _ w' => Halts w c w' ∧ ¬Promotable w c) := by
  apply Workspace.promote_steps h.linkFree hp (h.reserves _ hc)
  intro temp ht
  have htemp := h.staged _ (Ledger.mem_of_lookup ht)
  exact ⟨htemp.plain, htemp.ne_dest hc⟩

end Steady

namespace Promotes

theorem reserved (hprom : Promotes w c v) : v.reserved = w.reserved := by
  cases hprom <;> rfl

variable (hprom : Promotes w c v) (h : Steady t₀ dests w) (hc : c.dest ∈ dests)
include hprom h hc

theorem steady : Steady t₀ dests v := by
  cases hprom with
  | write _ _ hs ht => exact h.write hc hs ht
  | remove _ _ _ hb => exact h.remove hc hb
  | setAside _ _ _ hd ht => exact h.setAside hc hd ht
  | idle => exact h

theorem get?_staged (hs : Stored cs w) {x : Path × Path} (hx : x ∈ v.staged) :
    x ∈ w.staged ∧ v.tree.get? x.2 = w.tree.get? x.2 := by
  cases hprom with
  | @write temp b t ha hm hl ht =>
    obtain ⟨hx, hne⟩ := Ledger.mem_remove.1 hx
    have hxt : x.2 ≠ temp := fun he => hne (hs.apart x hx _ (Ledger.mem_of_lookup hl) he)
    exact ⟨hx, ht.get?_of_ne hxt ((h.staged x hx).ne_dest hc)⟩
  | @remove b ha hf hr hb =>
    refine ⟨hx, ?_⟩
    rw [get?_erase w.tree (ne_nil_of_get? hb nofun), if_neg ((h.staged x hx).ne_dest hc)]
  | @setAside temp b t ha hf hroom hd ht =>
    refine ⟨hx, ?_⟩
    have hne := hs.ne_of_free hd.free hx
    exact (ht.get?_of_ne ((h.staged x hx).ne_dest hc) hne).trans (hd.get?_put_of_ne hne)
  | idle ha hn => exact ⟨hx, rfl⟩

theorem stocked_of_delete (hs : Stocked (c :: cs) w) (ha : c.action = .delete)
    (hstaged : v.staged = w.staged) : Stocked cs v := by
  have hsame {x : Path × Path} (hx : x ∈ v.staged) := hprom.get?_staged h hc hs.stored hx
  constructor
  case content =>
    intro c' hc' hw'
    obtain ⟨temp', hl, hb⟩ := hs.content c' (List.mem_cons_of_mem c hc') hw'
    rw [← hstaged] at hl
    exact ⟨temp', hl, (hsame (Ledger.mem_of_lookup hl)).2.trans hb⟩
  case once => exact (List.pairwise_cons.1 hs.once).2
  case needed =>
    intro x hx
    obtain ⟨c', hc', hw', he⟩ := hs.needed x (hsame hx).1
    obtain rfl | hc' := List.mem_cons.1 hc'
    · exact absurd ha hw'
    · exact ⟨c', hc', hw', he⟩
  case single =>
    rw [hstaged]
    exact hs.single
  case apart =>
    rw [hstaged]
    exact hs.apart

theorem stocked_of_writes (hs : Stocked (c :: cs) w) (ha : c.Writes)
    (hstaged : v.staged = w.staged.remove c.dest) : Stocked cs v := by
  obtain ⟨honce, honces⟩ := List.pairwise_cons.1 hs.once
  have hsame {x : Path × Path} (hx : x ∈ v.staged) := hprom.get?_staged h hc hs.stored hx
  have hleft {x : Path × Path} (hx : x ∈ v.staged) : x ∈ w.staged ∧ x.1 ≠ c.dest :=
    Ledger.mem_remove.1 (hstaged ▸ hx)
  constructor
  case content =>
    intro c' hc' hw'
    obtain ⟨temp', hl, hb⟩ := hs.content c' (List.mem_cons_of_mem c hc') hw'
    have hne : c'.dest ≠ c.dest := (honce c' hc' ha hw').symm
    have hl' : v.staged.lookup c'.dest = some temp' := by
      rw [hstaged, Ledger.lookup_remove, if_neg hne, hl]
    exact ⟨temp', hl', (hsame (Ledger.mem_of_lookup hl')).2.trans hb⟩
  case once => exact honces
  case needed =>
    intro x hx
    obtain ⟨hx, hne⟩ := hleft hx
    obtain ⟨c', hc', hw', he⟩ := hs.needed x hx
    obtain rfl | hc' := List.mem_cons.1 hc'
    · exact absurd he.symm hne
    · exact ⟨c', hc', hw', he⟩
  case single =>
    intro x hx
    obtain ⟨hx, hne⟩ := hleft hx
    rw [hstaged, Ledger.lookup_remove, if_neg hne, hs.single x hx]
  case apart => exact fun x hx y hy => hs.apart x (hleft hx).1 y (hleft hy).1

theorem stocked (hs : Stocked (c :: cs) w) : Stocked cs v := by
  have hdelete := hprom.stocked_of_delete h hc hs
  have hwrites := hprom.stocked_of_writes h hc hs
  cases hprom with
  | write ha => exact hwrites ha rfl
  | remove ha => exact hdelete ha rfl
  | setAside ha => exact hdelete ha rfl
  | idle ha => exact hdelete ha rfl

omit hc in
theorem get?_of_mem {p : Path} (hp : p ∈ dests) (hne : p ≠ c.dest) :
    v.tree.get? p = w.tree.get? p := by
  cases hprom with
  | @write temp b t ha hm hl ht =>
    exact ht.get?_of_ne ((h.staged _ (Ledger.mem_of_lookup hl)).ne_dest hp).symm hne
  | @remove b ha hf hr hb => rw [get?_erase w.tree (ne_nil_of_get? hb nofun), if_neg hne]
  | @setAside temp b t ha hf hroom hd ht =>
    have htemp := ((h.tracked hd).ne_dest hp).symm
    exact (ht.get?_of_ne hne htemp).trans (hd.get?_put_of_ne htemp)
  | idle ha hn => rfl

theorem drew (hdrew : Drew t₀ .setAside cs w) (hp : Path.Plain c.dest)
    (hhas : c.action = .delete → w.tree.has c.dest = t₀.has c.dest) :
    Drew t₀ .setAside (cs ++ [c]) v := by
  have hdest {dir : Path} {n : Nat} (hn : t₀.Fresh w.reserved dir .setAside n) :
      dir ++ [tempName .setAside n] ≠ c.dest := fun he => hn.not_mem h.reserves (he ▸ hc)
  cases hprom with
  | @write temp b t ha hm hl ht =>
    obtain ⟨dir', n', hname⟩ := (h.staged _ (Ledger.mem_of_lookup hl)).name
    refine (hdrew.skip fun hneeds => hneeds.not_writes ha).congr rfl fun dir n hn => .of_eq ?_
    refine ht.get?_of_ne (fun he => ?_) (hdest hn)
    cases kind_eq_of_concat (he.trans hname)
  | @remove b ha hf hr hb =>
    refine (hdrew.skip fun hneeds => hf hneeds.2.1).congr rfl fun dir n hn => .of_eq ?_
    rw [get?_erase w.tree (ne_nil_of_get? hb nofun), if_neg (hdest hn)]
  | @setAside temp b t ha hf hroom hd ht hparent =>
    have htemp := h.tracked hd
    have hfile : w.tree.get? c.dest = some (.file b) :=
      (hd.get?_put_of_ne (htemp.ne_dest hc).symm).symm.trans ht.source
    have hneeds : c.Needs t₀ .setAside :=
      ⟨ha, hf, hhas ha ▸ h.rooted.has h.linkFree hp ht.reaches.2.1 (by simp [hfile])⟩
    obtain ⟨dir, n, rfl, hn⟩ := hd.name
    obtain rfl : dir = c.dest.parent := by simpa [Path.parent] using hparent
    refine hdrew.draw hneeds ⟨hn.lt, hn.unreserved, htemp.absent⟩ hn.free rfl ⟨b, ht.get?_target⟩ ?_
    exact fun _ _ hm hne => .of_eq ((ht.get?_of_ne (hdest hm) hne).trans (hd.get?_put_of_ne hne))
  | idle ha hn =>
    refine hdrew.skip fun hneeds => ?_
    rw [hhas ha, hneeds.2.2] at hn
    cases hn

section Visible

variable (hs : Stocked (c :: cs) w)
include hs

omit hc in
/-- A change that is promoted shows at its own place only. -/
theorem visible_of_ne (htrash : c.action = .delete → w.trash.lookup c.dest = none) {p : Path}
    (hp : p ≠ c.dest) : v.visible p = w.visible p := by
  cases hprom with
  | @write temp b t ha hm hl ht =>
    have hmem := Ledger.mem_of_lookup hl
    by_cases hpt : p = temp
    · subst hpt
      rw [visible_eq_none (ht.get?_source hp), visible_of_tracks (.inl ⟨_, hmem, rfl⟩)]
    · refine visible_congr (or_congr_left ⟨?_, ?_⟩) (ht.get?_of_ne hpt hp)
      · rintro ⟨x, hx, he⟩
        exact ⟨x, (Ledger.mem_remove.1 hx).1, he⟩
      · rintro ⟨x, hx, he⟩
        refine ⟨x, Ledger.mem_remove.2 ⟨hx, fun hk => hpt ?_⟩, he⟩
        have hsingle := hs.single x hx
        rw [hk, hl] at hsingle
        exact he.symm.trans (Option.some.inj hsingle).symm
  | @remove b ha hf hr hb =>
    refine visible_congr Iff.rfl ?_
    rw [get?_erase w.tree (ne_nil_of_get? hb nofun), if_neg hp]
  | @setAside temp b t ha hf hroom hd ht =>
    by_cases hpt : p = temp
    · subst hpt
      rw [visible_eq_none hd.free]
      exact visible_of_tracks (.inr ⟨(c.dest, p), Ledger.mem_set_self, rfl⟩)
    · refine visible_congr (or_congr_right ⟨?_, ?_⟩)
        ((ht.get?_of_ne hp hpt).trans (hd.get?_put_of_ne hpt))
      · rintro ⟨x, hx, he⟩
        obtain rfl | hx := Ledger.mem_of_mem_set hx
        · exact absurd he.symm hpt
        · exact ⟨x, hx, he⟩
      · rintro ⟨x, hx, he⟩
        refine ⟨x, Ledger.mem_set_of_ne hx fun hk => ?_, he⟩
        exact bne_iff_ne.1 (List.lookup_eq_none_iff.1 (htrash ha) x hx) hk.symm
  | idle ha hn => rfl

end Visible

section Made

variable (hstaged : c.Writes → ∀ temp, w.staged.lookup c.dest = some temp →
  w.tree.get? temp = some (.file c.bytes))
include hstaged

theorem get?_dest (hp : Path.Plain c.dest) (hfits : Fits c.dest) :
    v.tree.get? c.dest = c.made.map .file := by
  cases hprom with
  | @write temp b t ha hm hl ht =>
    have hbytes := ht.source.symm.trans (hstaged ha temp hl)
    cases hbytes
    rw [ht.get?_target, Target.made, if_pos ha]
    rfl
  | @remove b ha hf hr hb =>
    have hnot : ¬c.Writes := fun hw => hw ha
    rw [get?_erase w.tree (ne_nil_of_get? hb nofun), if_pos rfl, Target.made, if_neg hnot]
    rfl
  | @setAside temp b t ha hf hroom hd ht =>
    have hnot : ¬c.Writes := fun hw => hw ha
    rw [ht.get?_source ((h.tracked hd).ne_dest hc).symm, Target.made, if_neg hnot]
    rfl
  | idle ha hn =>
    have hnot : ¬c.Writes := fun hw => hw ha
    rw [h.rooted.get?_eq_none h.linkFree hp hfits hn, Target.made, if_neg hnot]
    rfl

theorem file?_dest (hp : Path.Plain c.dest) : v.tree.file? c.dest = c.made := by
  have hv := hprom.steady h hc
  apply Target.file?_eq_made hv.linkFree hv.rooted hp
  · intro hw
    cases hprom with
    | write _ _ _ ht => exact ht.reaches_target.2.1
    | remove ha => exact absurd ha hw
    | setAside ha => exact absurd ha hw
    | idle ha => exact absurd ha hw
  · exact hprom.get?_dest h hc hstaged hp

end Made

end Promotes

end Workspace

end Emend
