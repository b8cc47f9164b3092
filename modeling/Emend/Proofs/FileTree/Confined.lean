import Emend.Proofs.FileTree.Arrival
import Emend.Proofs.FileTree.Effect

namespace Emend

namespace FileTree

open EStateM

variable {base d here p q s : Path} {firm : Path → Prop} {t₀ t t' : FileTree} {n m : Name}
  {names rest : List Name}

/-- What is outside the base is as it was in `t₀`. All directories are there still, and no links have
come. Those within the base can have given way to files or to nothing, but for the firm ones. -/
structure Confined (base : Path) (firm : Path → Prop) (t₀ t : FileTree) : Prop where
  start : t₀.Rooted
  rooted : t.Rooted
  outside : ∀ p, ¬base <+: p → t.get? p = t₀.get? p
  dirs : ∀ p, t₀.get? p = some .dir → t.get? p = some .dir
  links : ∀ p target, t.get? p = some (.link target) → t₀.get? p = some (.link target)
  kept : ∀ p target, t₀.get? p = some (.link target) →
    t.get? p = some (.link target) ∨ ¬firm p ∧ t.get? p ≠ some .dir

theorem NoLink.of_dir (h : t.get? p = some .dir) : t.NoLink p := fun target he => by simp [h] at he

theorem NoLink.of_none (h : t.get? p = none) : t.NoLink p := fun target he => by simp [h] at he

theorem Rooted.get?_parent (h : t.Rooted) (hd : t.get? p = some .dir) : t.get? p.parent = some .dir := by
  by_cases hp : p = []
  · rw [hp]
    rfl
  · refine h.holds (by simp [hd]) _ (Path.parent_isPrefix p) fun he => ?_
    exact Path.not_isPrefix_parent hp (he.symm ▸ List.prefix_refl p)

theorem confined_refl (h : t.Rooted) : Confined base firm t t :=
  ⟨h, h, fun _ _ => rfl, fun _ hd => hd, fun _ _ hl => hl, fun _ _ hl => .inl hl⟩

namespace Confined

variable (hc : Confined base firm t₀ t)
include hc

theorem loosen {firm' : Path → Prop} (hfirm : ∀ p, firm' p → firm p) : Confined base firm' t₀ t :=
  ⟨hc.start, hc.rooted, hc.outside, hc.dirs, hc.links,
    fun p target hl => (hc.kept p target hl).imp_right fun h => ⟨mt (hfirm p) h.1, h.2⟩⟩

theorem noLink_of_dir (hd : t.get? p = some .dir) : t₀.NoLink p := by
  intro target hl
  obtain he | ⟨-, hne⟩ := hc.kept p target hl
  · simp [hd] at he
  · exact hne hd

theorem isPrefix_of_gone {target : Text} (hl : t₀.get? p = some (.link target)) (hn : t.NoLink p) :
    base <+: p := by
  by_cases hp : base <+: p
  · exact hp
  · exact absurd ((hc.outside p hp).trans hl) (hn target)

theorem noLink (hn : t₀.NoLink p) : t.NoLink p := fun target hl => hn target (hc.links p target hl)

end Confined

theorem get?_linkStart (hd : t.get? here = some .dir) (target : Text) :
    t.get? (here.linkStart target) = some .dir := by
  unfold Path.linkStart
  split
  · rfl
  · exact hd

theorem arrives_blank (h : ∀ n ∈ rest, n = []) : t.Arrives p rest p := by
  induction rest with
  | nil => exact .nil
  | cons n rest ih =>
    obtain ⟨hn, h⟩ := List.forall_mem_cons.1 h
    exact .same (.inl hn) (ih h)

namespace Walks

variable {last : LastName} (hc : Confined base firm t₀ t)
include hc

/-- What the system finds behind all links is where the names led from the start on, unless a link has
gone there. -/
theorem arrives (h : t.Walks last here names p) (hlast : last ≠ .entry)
    (hd : t.get? here = some .dir) :
    (t₀.Arrives here names p ∨ base <+: p ∧ t.get? p ≠ some .dir) ∧ t.NoLink p ∧ t.Holds p := by
  induction h with
  | nil => exact ⟨.inl .nil, .of_dir hd, hc.rooted.holds (by simp [hd])⟩
  | same hn _ ih =>
    obtain ⟨ha, hrest⟩ := ih hd
    exact ⟨ha.imp_left (.same hn), hrest⟩
  | up _ ih =>
    obtain ⟨ha, hrest⟩ := ih (hc.rooted.get?_parent hd)
    exact ⟨ha.imp_left .up, hrest⟩
  | @stop here n rest hn hl hrest =>
    refine ⟨?_, hl, holds_concat.2 ⟨hc.rooted.holds (by simp [hd]), hd⟩⟩
    by_cases hl₀ : t₀.NoLink (here ++ [n])
    · exact .inl (.down hn hl₀ (arrives_blank hrest))
    · obtain ⟨target, hl₀⟩ : ∃ target, t₀.get? (here ++ [n]) = some (.link target) := by
        simpa [NoLink] using hl₀
      refine .inr ⟨hc.isPrefix_of_gone hl₀ hl, ?_⟩
      exact ((hc.kept _ _ hl₀).resolve_left (hl target)).2
  | down hn hdir _ ih =>
    obtain ⟨ha, hrest⟩ := ih hdir
    exact ⟨ha.imp_left (.down hn (hc.noLink_of_dir hdir)), hrest⟩
  | entry _ he => exact absurd he hlast
  | link hn hl _ _ ih =>
    obtain ⟨ha, hrest⟩ := ih (get?_linkStart hd _)
    exact ⟨ha.imp_left (.link hn (hc.links _ _ hl)), hrest⟩

theorem entry_cases (h : t.Walks .entry here (names ++ [n]) p) (hn : PlainName n)
    (hd : t.get? here = some .dir) :
    ∃ d, t₀.Arrives here names d ∧ t.get? d = some .dir ∧ p = d ++ [n] := by
  generalize hall : names ++ [n] = all at h
  induction h generalizing names with
  | nil => simp at hall
  | same hn' h ih =>
    obtain ⟨rfl, hlast⟩ | ⟨names, rfl, rfl⟩ := List.append_eq_cons_iff.1 hall
    · obtain ⟨rfl, -⟩ := List.cons.inj hlast
      exact absurd hn' (not_or.2 ⟨hn.1, hn.2.1⟩)
    · obtain ⟨d, ha, hrest⟩ := ih hd rfl
      exact ⟨d, .same hn' ha, hrest⟩
  | up h ih =>
    obtain ⟨rfl, hlast⟩ | ⟨names, rfl, rfl⟩ := List.append_eq_cons_iff.1 hall
    · obtain ⟨rfl, -⟩ := List.cons.inj hlast
      exact absurd rfl hn.2.2
    · obtain ⟨d, ha, hrest⟩ := ih (hc.rooted.get?_parent hd) rfl
      exact ⟨d, .up ha, hrest⟩
  | stop hn' hl hrest =>
    obtain ⟨rfl, hlast⟩ | ⟨names, rfl, rfl⟩ := List.append_eq_cons_iff.1 hall
    · obtain ⟨rfl, rfl⟩ := List.cons.inj hlast
      exact ⟨_, .nil, hd, rfl⟩
    · exact absurd (hrest n (by simp)) hn.1
  | down hn' hdir h ih =>
    obtain ⟨rfl, hlast⟩ | ⟨names, rfl, rfl⟩ := List.append_eq_cons_iff.1 hall
    · obtain ⟨rfl, rfl⟩ := List.cons.inj hlast
      cases h
      exact ⟨_, .nil, hd, rfl⟩
    · obtain ⟨d, ha, hrest⟩ := ih hdir rfl
      exact ⟨d, .down hn' (hc.noLink_of_dir hdir) ha, hrest⟩
  | entry hn' _ =>
    obtain ⟨rfl, hlast⟩ | ⟨names, rfl, hlast⟩ := List.append_eq_cons_iff.1 hall
    · obtain ⟨rfl, -⟩ := List.cons.inj hlast
      exact ⟨_, .nil, hd, rfl⟩
    · simp at hlast
  | link hn' hl hon h ih =>
    obtain ⟨rfl, hlast⟩ | ⟨names, rfl, rfl⟩ := List.append_eq_cons_iff.1 hall
    · obtain ⟨rfl, rfl⟩ := List.cons.inj hlast
      exact absurd ⟨rfl, rfl⟩ hon
    · obtain ⟨d, ha, hrest⟩ := ih (get?_linkStart hd _) (List.append_assoc _ _ _)
      exact ⟨d, .link hn' (hc.links _ _ hl) ha, hrest⟩

end Walks

/-- A step from one tree to another has kept to the base and to all directories, and has brought no
link anywhere. -/
structure Keeps (base : Path) (firm : Path → Prop) (t₀ t t' : FileTree) : Prop where
  confined : Confined base firm t₀ t'
  dirs : ∀ p, t.get? p = some .dir → t'.get? p = some .dir
  noLink : ∀ p, t.NoLink p → t'.NoLink p

theorem Keeps.trans {t'' : FileTree} (h : Keeps base firm t₀ t t') (h' : Keeps base firm t₀ t' t'') :
    Keeps base firm t₀ t t'' :=
  ⟨h'.confined, fun p hd => h'.dirs p (h.dirs p hd), fun p hn => h'.noLink p (h.noLink p hn)⟩

section Steps

variable {b : ByteArray} (hc : Confined base firm t₀ t) (hs : base <+: s)
include hc

theorem Confined.keeps : Keeps base firm t₀ t t := ⟨hc, fun _ hd => hd, fun _ hn => hn⟩

include hs

/-- A change within the base keeps to it. A link can go there unless it is firm. -/
theorem Confined.step (hroot : t'.Rooted) (hdir : t.get? s ≠ some .dir)
    (hsame : ∀ p, p ≠ s → t'.get? p = t.get? p) (hnew : t'.NoLink s)
    (hgone : ¬t₀.NoLink s → ¬firm s ∧ t'.get? s ≠ some .dir) : Keeps base firm t₀ t t' := by
  have hlink {p : Path} {target : Text} (hl : t'.get? p = some (.link target)) :
      t.get? p = some (.link target) := by
    have hne : p ≠ s := by
      rintro rfl
      exact hnew target hl
    rw [← hsame p hne, hl]
  have hdirs (p : Path) (hd : t.get? p = some .dir) : t'.get? p = some .dir := by
    have hne : p ≠ s := by
      rintro rfl
      exact hdir hd
    rw [hsame p hne, hd]
  refine ⟨⟨hc.start, hroot, fun p hp => ?_, fun p hd => hdirs p (hc.dirs p hd),
    fun p target hl => hc.links p target (hlink hl), fun p target hl => ?_⟩, hdirs,
    fun p hn target hl => hn target (hlink hl)⟩
  · have hne : p ≠ s := by
      rintro rfl
      exact hp hs
    rw [hsame p hne, hc.outside p hp]
  · by_cases hp : p = s
    · subst hp
      exact .inr (hgone fun hn => hn target hl)
    · rw [hsame p hp]
      exact hc.kept p target hl

omit hs in
theorem Confined.not_firm (hfirm : firm s → t.NoLink s) (hn : ¬t₀.NoLink s) : ¬firm s := by
  intro hf
  apply hn
  intro target hl
  obtain he | ⟨hnot, -⟩ := hc.kept s target hl
  · exact hfirm hf target he
  · exact hnot hf

theorem Confined.put (hfirm : firm s → t.NoLink s) (hholds : t.Holds s) (hdir : t.get? s ≠ some .dir) :
    Keeps base firm t₀ t (t.put s (.file b)) := by
  have hput := get?_put t (ne_nil_of_get? rfl hdir) (.file b)
  have hself : (t.put s (.file b)).get? s = some (.file b) := by rw [hput, if_pos rfl]
  exact hc.step hs (hc.rooted.put_of_holds hholds hdir) hdir (fun p hp => by rw [hput, if_neg hp])
    (by simp [NoLink, hself]) fun hn => ⟨hc.not_firm hfirm hn, by simp [hself]⟩

theorem Confined.erase (hfirm : firm s → t.NoLink s) (hdir : t.get? s ≠ some .dir) :
    Keeps base firm t₀ t (t.erase s) := by
  have herase := get?_erase t (ne_nil_of_get? rfl hdir)
  have hself : (t.erase s).get? s = none := by rw [herase, if_pos rfl]
  exact hc.step hs (hc.rooted.erase hdir) hdir (fun p hp => by rw [herase, if_neg hp])
    (.of_none hself) fun hn => ⟨hc.not_firm hfirm hn, by simp [hself]⟩

theorem Confined.put_dir (hf : firm s) (hholds : t.Holds s) (hn : t.get? s = none) :
    Keeps base firm t₀ t (t.put s .dir) := by
  have hdir : t.get? s ≠ some .dir := by simp [hn]
  have hput := get?_put t (ne_nil_of_get? hn nofun) .dir
  have hself : (t.put s .dir).get? s = some .dir := by rw [hput, if_pos rfl]
  exact hc.step hs (hc.rooted.put_of_holds hholds hdir) hdir (fun p hp => by rw [hput, if_neg hp])
    (.of_dir hself) fun hl => absurd hf (hc.not_firm (fun _ => .of_none hn) hl)

theorem Confined.move (hl : t.NoLink s) (hb : t.get? s = some (.file b)) (hq : base <+: q)
    (hfirm : firm q → t.NoLink q) (hholds : t.Holds q) (hdir : t.get? q ≠ some .dir) :
    Keeps base firm t₀ t ((t.erase s).put q (.file b)) := by
  have hfile := ne_dir_of_get? hb
  have herase := hc.erase hs (fun _ => hl) hfile
  apply herase.trans
  apply herase.confined.put hq (fun hf => herase.noLink q (hfirm hf))
    (hholds.mono (get?_dir_erase hfile))
  rw [get?_erase t (ne_nil_of_get? rfl hfile)]
  split
  · exact nofun
  · exact hdir

end Steps

/-- The path leads to an entry within the base only, and to no link. -/
structure Placed (base : Path) (t₀ t : FileTree) (p : Path) : Prop where
  plain : Path.Plain p
  enters : ∀ q, t₀.Enters p q → base <+: q ∧ t.NoLink q

theorem Placed.mono (h : Placed base t₀ t p) (hn : ∀ p, t.NoLink p → t'.NoLink p) :
    Placed base t₀ t' p :=
  ⟨h.plain, fun q hq => ⟨(h.enters q hq).1, hn q (h.enters q hq).2⟩⟩

section Calls

variable (hc : Confined base firm t₀ t)
include hc

theorem Writes.keeps (h : t.Writes names t') (hin : t₀.Inside base names) :
    Keeps base firm t₀ t t' := by
  obtain ⟨s, bytes, hs, hdir, rfl⟩ := h
  obtain ⟨ha, hlink, hholds⟩ := (spot_walks hs).arrives hc nofun rfl
  refine hc.put ?_ (fun _ => hlink) hholds hdir
  obtain ha | ⟨hb, -⟩ := ha
  · exact hin _ ha
  · exact hb

theorem writeFile_keeps (hin : t₀.Inside base names) (bytes : ByteArray) :
    (writeFile names bytes).Ends t (fun _ t' => Keeps base firm t₀ t t')
      (fun _ t' => Keeps base firm t₀ t t') := by
  apply (writeFile_effect t names bytes).mono
  · exact fun _ _ h => h.keeps hc hin
  · rintro _ _ rfl
    exact hc.keeps

theorem copyFile_keeps {source target : List Name} (hin : t₀.Inside base target)
    (hin' : t₀.Inside base (target ++ [source.getLastD []])) :
    (copyFile source target).Ends t (fun _ t' => Keeps base firm t₀ t t')
      (fun _ t' => Keeps base firm t₀ t t') := by
  have htarget : t₀.Inside base (t.copyTarget source target) := by
    unfold copyTarget
    split
    · split
      · next hlast =>
        -- Names that end in a slash lead where they do without it.
        obtain ⟨ms, rfl⟩ := List.getLast?_eq_some_iff.1 hlast
        rw [List.dropLast_concat]
        intro p hp
        obtain ⟨q, hq, hlast⟩ := hp.exists_of_append
        exact hin' p ((hq.append (.same (.inl rfl) .nil)).append hlast)
      · exact hin'
    · exact hin
  apply (copyFile_effect t source target).mono
  · exact fun _ _ h => h.keeps hc htarget
  · rintro _ _ rfl
    exact hc.keeps

theorem spot_enters {spot : Spot} (hp : Path.Plain p) (hs : t.spot .entry p = .ok spot)
    (hdir : t.get? spot.path ≠ some .dir) : t₀.Enters p spot.path ∧ t.Holds spot.path := by
  have hwalks := spot_walks hs
  have hne : p ≠ [] := by
    rintro rfl
    obtain ⟨r, slash⟩ := spot
    cases hwalks
    exact hdir rfl
  obtain ⟨names, n, rfl⟩ : ∃ names n, p = names ++ [n] :=
    ⟨_, _, (List.dropLast_concat_getLast hne).symm⟩
  obtain ⟨hn, -⟩ := Path.plain_cons.1 (Path.plain_append.1 hp).2
  obtain ⟨d, ha, hd, hpath⟩ := hwalks.entry_cases hc hn rfl
  rw [hpath]
  exact ⟨⟨hn, ha⟩, holds_concat.2 ⟨hc.rooted.holds (by simp [hd]), hd⟩⟩

theorem removeFile_keeps (hp : Path.Plain p)
    (hin : ∀ q, t₀.Enters p q → base <+: q ∧ (firm q → t.NoLink q)) :
    (removeFile p).Ends t (fun _ t' => Keeps base firm t₀ t t')
      (fun _ t' => Keeps base firm t₀ t t') := by
  apply (removeFile_effect t p).mono
  · rintro _ _ ⟨s, hs, hdir, rfl⟩
    obtain ⟨hb, hfirm⟩ := hin _ (spot_enters hc hp hs hdir).1
    exact hc.erase hb hfirm hdir
  · rintro _ _ rfl
    exact hc.keeps

theorem rename_keeps (h : Placed base t₀ t p) (hq : Path.Plain q)
    (hin : ∀ r, t₀.Enters q r → base <+: r ∧ (firm r → t.NoLink r)) :
    (rename p q).Ends t (fun _ t' => Keeps base firm t₀ t t')
      (fun _ t' => Keeps base firm t₀ t t') := by
  apply (rename_effect t p q).mono
  · rintro _ t' ⟨s, d, e, hm⟩
    have hsource := hm.ne_dir_source
    obtain ⟨hb, hl⟩ := h.enters _ (spot_enters hc h.plain hm.source hsource).1
    obtain ⟨hd, hholds⟩ := spot_enters hc hq hm.target hm.free
    obtain ⟨hb', hfirm⟩ := hin _ hd
    obtain ⟨b, hfile⟩ := hm.exists_file hl
    rw [hm.tree]
    split
    · exact hc.keeps
    · obtain rfl : e = .file b := Option.some.inj (hm.entry.symm.trans hfile)
      exact hc.move hb hl hfile hb' hfirm hholds hm.free
  · rintro _ _ ⟨rfl, -⟩
    exact hc.keeps

theorem makeTemp_keeps (hp : Path.Plain p) (hin : t₀.Inside base p) (reserved : List Name)
    (kind : TempKind) (bytes : ByteArray) :
    (makeTemp reserved p kind bytes).Ends t
      (fun temp t' => Keeps base firm t₀ t t' ∧ Placed base t₀ t' temp)
      (fun _ t' => Keeps base firm t₀ t t') := by
  apply (makeTemp_effect t reserved p kind bytes).mono
  · rintro temp t' ⟨dir, n, h⟩
    obtain ⟨slash, hs⟩ := h.locate
    obtain ⟨ha, -, -⟩ := (locate_walks hs).arrives hc nofun rfl
    have ha := ha.resolve_right fun hgone => hgone.2 h.get?
    have hb := (hin _ ha).trans (List.prefix_append _ [tempName kind n])
    obtain ⟨bytes, rfl⟩ := h.tree
    have hplain := Path.plain_append.2 ⟨hp, plain_tempName kind n⟩
    refine ⟨hc.put hb (fun _ => .of_none h.fresh) ?_ (by simp [h.fresh]), h.temp ▸ hplain, ?_⟩
    · exact holds_concat.2 ⟨hc.rooted.holds (by simp [h.get?]), h.get?⟩
    · intro q hq
      rw [h.temp] at hq
      obtain rfl := hq.unique ⟨(Path.plain_cons.1 (plain_tempName kind n)).1, ha⟩
      exact ⟨hb, by simp [NoLink, get?_put]⟩
  · rintro _ _ rfl
    exact hc.keeps

end Calls

section Dirs

variable (hc : Confined base firm t₀ t) (hf : ∀ p, firm p) (hp : Path.Plain p)
  (hbase : t₀.get? base.parent = some .dir) (hin : t₀.Inside base p)
include hc hf hp hbase hin

theorem isPrefix_of_missing (hq : names ++ [n] <+: p) (ha : t₀.Arrives [] names d)
    (hn : t.get? (d ++ [n]) = none) : base <+: d ++ [n] := by
  have hlink : t₀.NoLink (d ++ [n]) :=
    Classical.byContradiction fun hl => hc.not_firm (fun _ => .of_none hn) hl (hf _)
  have hdir : t₀.get? (d ++ [n]) ≠ some .dir := by
    intro hd
    rw [hc.dirs _ hd] at hn
    cases hn
  obtain ⟨rest, rfl⟩ := hq
  obtain ⟨hnames, hrest⟩ := Path.plain_append.1 hp
  obtain ⟨hplain, -⟩ := Path.plain_cons.1 (Path.plain_append.1 hnames).2
  have hb := hin _ ((ha.append (.down hplain hlink .nil)).append
    (arrives_behind hc.start hdir hrest))
  obtain h | h := List.prefix_or_prefix_of_prefix hb (List.prefix_append _ _)
  · exact h
  · obtain h | h := Path.eq_or_prefix_parent h
    · exact h ▸ List.prefix_refl _
    · refine absurd ?_ hdir
      by_cases he : d ++ [n] = base.parent
      · rw [he, hbase]
      · exact hc.start.holds (by simp [hbase]) _ h he

theorem ensureDir_keeps (hq : q <+: p) :
    (ensureDir q).Ends t (fun _ t' => Keeps base firm t₀ t t') (fun _ t' => Keeps base firm t₀ t t') := by
  apply (ensureDir_effect t q).mono
  · rintro _ _ (rfl | ⟨s, hs, hn, rfl⟩)
    · exact hc.keeps
    · obtain ⟨henters, hholds⟩ := spot_enters hc (hp.mono hq) hs (by simp [hn])
      generalize s.path = r at henters hholds hn
      obtain ⟨-, ha⟩ := henters
      exact hc.put_dir (isPrefix_of_missing hc hf hp hbase hin hq ha hn) (hf _) hholds hn
  · rintro _ _ rfl
    exact hc.keeps

theorem makeLevels_keeps :
    (makeLevels p).Ends t (fun _ t' => Keeps base firm t₀ t t')
      (fun _ t' => Keeps base firm t₀ t t') := by
  apply makeLevels_steps fun _ t' => Keeps base firm t₀ t t'
  case hstart => exact fun _ _ => hc.keeps
  case hmono => exact fun _ _ _ h => h
  case hstep =>
    intro q t' hq _ h
    apply (ensureDir_keeps h.confined hf hp hbase hin hq).mono
    · exact fun _ _ h' => h.trans h'
    · exact fun _ _ h' => h.trans h'

/-- Directories are made only within the base, as far as they are missing on the way to a place there. -/
theorem makeDirs_keeps :
    (makeDirs p).Ends t (fun _ t' => Keeps base firm t₀ t t')
      (fun _ t' => Keeps base firm t₀ t t') := by
  unfold makeDirs
  by_cases hdeep : maxDepth < t.levels p
  · simpa only [EStateM.Ends, hdeep, if_true] using hc.keeps
  · simpa only [EStateM.Ends, hdeep, if_false] using
      makeLevels_keeps hc hf hp hbase hin

end Dirs

end FileTree

end Emend
