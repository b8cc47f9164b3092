import Emend.Proofs.FileTree.Confined

namespace Emend

def TempPrefixed (n : Name) : Prop := ".v4a-".toList <+: n

instance (n : Name) : Decidable (TempPrefixed n) :=
  inferInstanceAs (Decidable (".v4a-".toList <+: n))

namespace FileTree

open EStateM

variable {base here p : Path} {firm : Path → Prop} {t₀ t t' : FileTree} {n : Name}
  {names rest : List Name} {last : LastName}

/-- A file with the name of a temporary one is at the path. -/
structure Litter (t : FileTree) (p : Path) : Prop where
  name : ∃ dir s, ∃ kind : TempKind, p = dir ++ [".v4a-".toList ++ s ++ kind.ending]
  file : ∃ b, t.get? p = some (.file b)

theorem Litter.tempPrefixed (h : t.Litter (p ++ [n])) : TempPrefixed n := by
  obtain ⟨dir, s, kind, hp⟩ := h.name
  obtain ⟨-, hn⟩ := List.append_inj' hp rfl
  rw [List.singleton_inj.1 hn, List.append_assoc]
  exact List.prefix_append _ _

theorem not_litter_empty : ¬empty.Litter p := by
  intro h
  obtain ⟨b, hb⟩ := h.file
  rw [get?_of_ne_nil (ne_nil_of_get? hb nofun), lookup_empty] at hb
  cases hb

theorem Litter.of_put_dir {q : Path} (hp : p ≠ []) (h : (t.put p .dir).Litter q) : t.Litter q := by
  obtain ⟨b, hb⟩ := h.file
  rw [get?_put t hp] at hb
  split at hb
  · cases hb
  · exact ⟨h.name, b, hb⟩

/-- No file with the name of a temporary one has come, and no directory. -/
structure Tidy (t t' : FileTree) : Prop where
  litter : ∀ p, t'.Litter p → t.Litter p
  dirs : ∀ p, t'.get? p = some .dir → t.get? p = some .dir

theorem Tidy.refl (t : FileTree) : t.Tidy t := ⟨fun _ h => h, fun _ h => h⟩

theorem Tidy.trans {t'' : FileTree} (h : t.Tidy t') (h' : t'.Tidy t'') : t.Tidy t'' :=
  ⟨fun p hl => h.litter p (h'.litter p hl), fun p hd => h.dirs p (h'.dirs p hd)⟩

theorem Tidy.put {d : Path} {b : ByteArray} (hn : ¬TempPrefixed n) : t.Tidy (t.put (d ++ [n]) (.file b)) := by
  have hput := get?_put t (p := d ++ [n]) (by simp) (.file b)
  constructor
  · intro p h
    have hne : p ≠ d ++ [n] := by
      rintro rfl
      exact hn h.tempPrefixed
    refine ⟨h.name, ?_⟩
    have hfile := h.file
    rwa [hput, if_neg hne] at hfile
  · intro p hd
    rw [hput] at hd
    split at hd
    · cases hd
    · exact hd

theorem Tidy.erase (hp : t.get? p ≠ some .dir) : t.Tidy (t.erase p) := by
  have herase (q : Path) {e : Entry} (h : (t.erase p).get? q = some e) : t.get? q = some e := by
    rw [get?_erase t (ne_nil_of_get? rfl hp)] at h
    split at h
    · cases h
    · exact h
  exact ⟨fun q h => ⟨h.name, h.file.imp fun _ => herase q⟩, fun q => herase q⟩

theorem Tidy.put_over {b b' : ByteArray} (hp : t.get? p = some (.file b)) :
    t.Tidy (t.put p (.file b')) := by
  have hput := get?_put t (ne_nil_of_get? hp nofun) (.file b')
  constructor
  · intro q h
    refine ⟨h.name, ?_⟩
    have hfile := h.file
    rw [hput] at hfile
    split at hfile
    · next hq => exact ⟨b, hq ▸ hp⟩
    · exact hfile
  · intro q hd
    rw [hput] at hd
    split at hd
    · cases hd
    · exact hd

/-- All names on the targets of links have the property. -/
def LinksNamed (t : FileTree) (P : Name → Prop) : Prop :=
  ∀ p target, t.get? p = some (.link target) → ∀ n ∈ Path.pieces target, P n

theorem LinkFree.linksNamed (h : t.LinkFree) (P : Name → Prop) : t.LinksNamed P :=
  fun p target hl => absurd hl (h p target)

def Neat (p : Path) : Prop := ∃ d n, p = d ++ [n] ∧ ¬TempPrefixed n

section Names

variable (hc : Confined base firm t₀ t) (hnames : ∀ n ∈ names, ¬TempPrefixed n)
  (hlinks : t₀.LinksNamed (¬TempPrefixed ·))
include hc hnames hlinks

theorem Walks.neat (h : t.Walks last here names p) (hd : t.get? here = some .dir) :
    t.get? p = some .dir ∨ Neat p := by
  induction h with
  | nil => exact .inl hd
  | same _ _ ih => exact ih (List.forall_mem_cons.1 hnames).2 hd
  | up _ ih => exact ih (List.forall_mem_cons.1 hnames).2 (hc.rooted.get?_parent hd)
  | @stop here n rest => exact .inr ⟨here, n, rfl, (List.forall_mem_cons.1 hnames).1⟩
  | down _ hdir _ ih => exact ih (List.forall_mem_cons.1 hnames).2 hdir
  | @entry here n => exact .inr ⟨here, n, rfl, (List.forall_mem_cons.1 hnames).1⟩
  | link _ hl _ _ ih =>
    refine ih (List.forall_mem_append.2 ⟨?_, (List.forall_mem_cons.1 hnames).2⟩)
      (get?_linkStart hd _)
    exact hlinks _ _ (hc.links _ _ hl)

theorem spot_neat {s : Spot} (hs : t.spot last names = .ok s) (hdir : t.get? s.path ≠ some .dir) :
    Neat s.path :=
  ((spot_walks hs).neat hc hnames hlinks rfl).resolve_left hdir

theorem Writes.tidy (h : t.Writes names t') : t.Tidy t' := by
  obtain ⟨s, bytes, hs, hdir, rfl⟩ := h
  obtain ⟨d, n, hpath, hn⟩ := spot_neat hc hnames hlinks hs hdir
  rw [hpath]
  exact .put hn

end Names

theorem Neat.not_litter (h : Neat p) : ¬t.Litter p := by
  obtain ⟨d, n, rfl, hn⟩ := h
  exact fun hl => hn hl.tempPrefixed

theorem Removes.tidy (h : t.Removes names t') : t.Tidy t' := by
  obtain ⟨s, -, hdir, rfl⟩ := h
  exact .erase hdir

section Moves

variable {source target : List Name} {s d : Spot} {e : Entry} (h : t.Moves source target t' s d e)
  (hl : t.NoLink s.path)
include h hl

theorem Moves.tidy (hd : Neat d.path) : t.Tidy t' ∧ ¬t'.Litter s.path := by
  obtain ⟨b, hb⟩ := h.exists_file hl
  obtain rfl : e = .file b := Option.some.inj (h.entry.symm.trans hb)
  rw [h.tree]
  split
  · next hsame => exact ⟨.refl t, hsame ▸ hd.not_litter⟩
  · next hsame =>
    have hput := get?_put (t.erase s.path) (ne_nil_of_get? rfl h.free) (.file b) s.path
    rw [if_neg hsame, get?_erase t (ne_nil_of_get? rfl h.ne_dir_source), if_pos rfl] at hput
    constructor
    · obtain ⟨dir, n, hpath, hn⟩ := hd
      rw [hpath]
      exact (Tidy.erase h.ne_dir_source).trans (.put hn)
    · intro hlitter
      obtain ⟨b', hb'⟩ := hlitter.file
      rw [hput] at hb'
      cases hb'

theorem Moves.tidy_over {b : ByteArray} (hd : t.get? d.path = some (.file b)) : t.Tidy t' := by
  obtain ⟨b', hb'⟩ := h.exists_file hl
  obtain rfl : e = .file b' := Option.some.inj (h.entry.symm.trans hb')
  rw [h.tree]
  split
  · exact .refl t
  · next hsame =>
    refine (Tidy.erase h.ne_dir_source).trans (.put_over (b := b) ?_)
    rw [get?_erase t (ne_nil_of_get? rfl h.ne_dir_source), if_neg (Ne.symm hsame), hd]

end Moves

theorem makeDirs_litter (t : FileTree) (p : Path) :
    (makeDirs p).Ends t (fun _ t' => ∀ q, t'.Litter q → t.Litter q)
      (fun _ t' => ∀ q, t'.Litter q → t.Litter q) := by
  unfold makeDirs
  by_cases hdeep : maxDepth < t.levels p
  · simp [EStateM.Ends, hdeep]
  · simp only [EStateM.Ends, hdeep, if_false]
    apply makeLevels_steps fun _ t' => ∀ q, t'.Litter q → t.Litter q
    case hstart => exact fun _ _ _ h => h
    case hmono => exact fun _ _ _ h => h
    case hstep =>
      intro r t' _ _ h
      apply (ensureDir_effect t' r).mono
      · rintro _ _ (rfl | ⟨s, -, hn, rfl⟩)
        · exact h
        · exact fun q hq => h q (hq.of_put_dir (ne_nil_of_get? hn (by simp)))
      · rintro _ _ rfl
        exact h

section Resolution

variable (P : Name → Prop)

/-- All names on the way from links have the property. -/
inductive Named : Resolved → Prop
  | done {p : Path} {known : Links} (h : ∀ n ∈ p, P n) (hknown : ∀ e ∈ known, ∀ n ∈ e.2, P n) :
      Named (.done p known)
  | stuck {p : RealPath} (h : ∀ n ∈ p.path, P n) : Named (.stuck p)
  | aborted {a : Abort} : Named (.aborted a)

variable {P}

theorem forall_mem_linkStart {here : Place t} (h : ∀ n ∈ here.path, P n) (target : Text) :
    ∀ n ∈ (linkStart here target).path, P n := by
  unfold linkStart
  split
  · simp
  · exact h

variable (hlinks : t.LinksNamed P)
include hlinks

theorem resolveNames_named {onLink : Links → Path → Place t → List Name → Resolved} {known : Links}
    {here : Place t}
    (honLink : ∀ known link here names, (∀ e ∈ known, ∀ n ∈ e.2, P n) → (∀ n ∈ link, P n) →
      (∀ n ∈ here.path, P n) → (∀ n ∈ names, P n) → Named P (onLink known link here names))
    (hknown : ∀ e ∈ known, ∀ n ∈ e.2, P n) (hhere : ∀ n ∈ here.path, P n) (hnames : ∀ n ∈ names, P n) :
    Named P (t.resolveNames onLink known here names) := by
  induction names generalizing known here with
  | nil => exact .done hhere hknown
  | cons n rest ih =>
    obtain ⟨hn, hrest⟩ := List.forall_mem_cons.1 hnames
    have hthere : ∀ m ∈ (here.child n).path, P m := by
      rw [Place.path_child]
      exact List.forall_mem_append.2 ⟨hhere, List.forall_mem_singleton.2 hn⟩
    rw [resolveNames]
    split
    · exact ih hknown hhere hrest
    · split
      · refine ih hknown (fun m hm => hhere m ?_) hrest
        rw [Place.path_parent] at hm
        exact List.dropLast_subset _ hm
      · split
        · exact .aborted
        · dsimp only
          split
          · next target he =>
            rw [entry_child] at he
            split
            · next p hp =>
              refine ih hknown ?_ hrest
              rw [Place.path_ofPath]
              obtain ⟨before, after, rfl, -⟩ := List.lookup_eq_some_iff.1 hp
              exact hknown ((here.child n).path, p) (by simp)
            · have hstart := forall_mem_linkStart hhere target
              have hres := honLink known _ _ (Path.pieces target) hknown hthere hstart (hlinks _ _ he)
              split
              · next p known' hdone =>
                rw [hdone] at hres
                obtain ⟨hp, hknown'⟩ := hres
                refine ih (List.forall_mem_cons.2 ⟨hp, hknown'⟩) ?_ hrest
                rw [Place.path_ofPath]
                exact hp
              · next p hstuck =>
                rw [hstuck] at hres
                cases hres with
                | stuck hp => exact .stuck (Path.forall_mem_join hp hrest)
              · exact .aborted
          · exact ih hknown hthere hrest

theorem resolveLinks_named (depth : Nat) {active : List Path} {known : Links} {here : Place t}
    (hknown : ∀ e ∈ known, ∀ n ∈ e.2, P n) (hhere : ∀ n ∈ here.path, P n) (hnames : ∀ n ∈ names, P n) :
    Named P (t.resolveLinks depth active known here names) := by
  induction depth generalizing active known here names with
  | zero =>
    rw [resolveLinks]
    refine resolveNames_named hlinks (fun _ link _ _ _ hlink _ _ => ?_) hknown hhere hnames
    split
    · exact .stuck hlink
    · exact .aborted
  | succ depth ih =>
    rw [resolveLinks]
    refine resolveNames_named hlinks (fun _ link _ _ hknown hlink hhere hnames => ?_) hknown hhere hnames
    split
    · exact .stuck hlink
    · exact ih hknown hhere hnames

theorem realPath_named {r : RealPath} (h : t.realPath names = .ok r) (hnames : ∀ n ∈ names, P n) :
    ∀ n ∈ r.path, P n := by
  have hres : Named P (t.resolveLinks maxDepth [] [] .root names) :=
    resolveLinks_named hlinks maxDepth nofun nofun hnames
  unfold realPath at h
  split at h
  · next p known hp =>
    cases h
    rw [hp] at hres
    cases hres with
    | done hp => exact hp
  · next p hp =>
    cases h
    rw [hp] at hres
    cases hres with
    | stuck hp => exact hp
  · cases h

end Resolution

end FileTree

end Emend
