import Emend.Proofs.FileTree.Call

namespace Emend

/-- Where a link leads that stands in the directory `here`. -/
def Path.linkStart (here : Path) (target : Text) : Path := if target.head? = some '/' then [] else here

namespace FileTree

variable {t t' : FileTree} {base here p q : Path} {n : Name} {names rest : List Name} {target : Text}

abbrev PlainName (n : Name) : Prop := n ≠ [] ∧ n ≠ ['.'] ∧ n ≠ ['.', '.']

theorem plainName_of_not (hn : ¬(n = [] ∨ n = ['.'])) (hup : n ≠ ['.', '.']) : PlainName n :=
  ⟨fun he => hn (.inl he), fun he => hn (.inr he), hup⟩

def NoLink (t : FileTree) (p : Path) : Prop := ∀ target, t.get? p ≠ some (.link target)

/-- From `here` on, the names lead to the path. Those behind what is not there are kept. -/
inductive Arrives (t : FileTree) : Path → List Name → Path → Prop
  | nil {here : Path} : Arrives t here [] here
  | same {here p : Path} {n : Name} {rest : List Name} (hn : n = [] ∨ n = ['.'])
      (h : Arrives t here rest p) : Arrives t here (n :: rest) p
  | up {here p : Path} {rest : List Name} (h : Arrives t here.parent rest p) :
      Arrives t here (['.', '.'] :: rest) p
  | down {here p : Path} {n : Name} {rest : List Name} (hn : PlainName n)
      (hl : t.NoLink (here ++ [n])) (h : Arrives t (here ++ [n]) rest p) : Arrives t here (n :: rest) p
  | link {here p : Path} {n : Name} {rest : List Name} {target : Text} (hn : PlainName n)
      (hl : t.get? (here ++ [n]) = some (.link target))
      (h : Arrives t (here.linkStart target) (Path.pieces target ++ rest) p) :
      Arrives t here (n :: rest) p

/-- The names lead to the entry at the path. A link there is not followed, those before it are. -/
inductive Enters (t : FileTree) : List Name → Path → Prop
  | mk {names : List Name} {n : Name} {d : Path} (hn : PlainName n) (h : t.Arrives [] names d) :
      Enters t (names ++ [n]) (d ++ [n])

/-- With all links followed, the names lead to no path outside the base. -/
def Inside (t : FileTree) (base : Path) (names : List Name) : Prop :=
  ∀ p, t.Arrives [] names p → base <+: p

theorem inside_nil (t : FileTree) (names : List Name) : t.Inside [] names := fun _ _ => List.nil_prefix

/-- No link stands on the path or at its end. -/
def Clear (t : FileTree) (p : Path) : Prop := ∀ q, q <+: p → t.NoLink q

namespace Arrives

theorem cons_cases (h : t.Arrives here (n :: rest) p) (hn : PlainName n) :
    t.NoLink (here ++ [n]) ∧ t.Arrives (here ++ [n]) rest p ∨
      ∃ target, t.get? (here ++ [n]) = some (.link target) ∧
        t.Arrives (here.linkStart target) (Path.pieces target ++ rest) p := by
  obtain ⟨hne, hdot, hup⟩ := hn
  cases h with
  | same hn => exact absurd hn (not_or.2 ⟨hne, hdot⟩)
  | up => exact absurd rfl hup
  | down hn hl h => exact .inl ⟨hl, h⟩
  | link hn hl h => exact .inr ⟨_, hl, h⟩

theorem unique (h : t.Arrives here names p) (h' : t.Arrives here names q) : p = q := by
  induction h with
  | nil =>
    cases h'
    rfl
  | same hn _ ih =>
    cases h' with
    | same _ h' => exact ih h'
    | up => exact absurd hn (by simp)
    | down hn' => exact absurd hn (not_or.2 ⟨hn'.1, hn'.2.1⟩)
    | link hn' => exact absurd hn (not_or.2 ⟨hn'.1, hn'.2.1⟩)
  | up _ ih =>
    cases h' with
    | same hn => exact absurd hn (by simp)
    | up h' => exact ih h'
    | down hn' => exact absurd rfl hn'.2.2
    | link hn' => exact absurd rfl hn'.2.2
  | down hn hl _ ih =>
    obtain ⟨-, h'⟩ | ⟨target, hl', -⟩ := h'.cons_cases hn
    · exact ih h'
    · exact absurd hl' (hl target)
  | link hn hl _ ih =>
    obtain ⟨hl', -⟩ | ⟨target, hl', h'⟩ := h'.cons_cases hn
    · exact absurd hl (hl' _)
    · rw [hl] at hl'
      cases hl'
      exact ih h'

theorem append {ms ns : List Name} (h : t.Arrives here ms p) (h' : t.Arrives p ns q) :
    t.Arrives here (ms ++ ns) q := by
  induction h with
  | nil => exact h'
  | same hn _ ih => exact .same hn (ih h')
  | up _ ih => exact .up (ih h')
  | down hn hl _ ih => exact .down hn hl (ih h')
  | link hn hl _ ih => exact .link hn hl (List.append_assoc _ _ _ ▸ ih h')

theorem exists_of_append {ms ns : List Name} (h : t.Arrives here (ms ++ ns) q) :
    ∃ p, t.Arrives here ms p ∧ t.Arrives p ns q := by
  generalize hnames : ms ++ ns = names at h
  induction h generalizing ms with
  | nil =>
    obtain ⟨rfl, rfl⟩ := List.append_eq_nil_iff.1 hnames
    exact ⟨_, .nil, .nil⟩
  | same hn h ih =>
    cases ms with
    | nil =>
      obtain rfl : ns = _ := hnames
      exact ⟨_, .nil, .same hn h⟩
    | cons m ms =>
      obtain ⟨rfl, hrest⟩ := List.cons.inj hnames
      obtain ⟨p, hp, hq⟩ := ih hrest
      exact ⟨p, .same hn hp, hq⟩
  | up h ih =>
    cases ms with
    | nil =>
      obtain rfl : ns = _ := hnames
      exact ⟨_, .nil, .up h⟩
    | cons m ms =>
      obtain ⟨rfl, hrest⟩ := List.cons.inj hnames
      obtain ⟨p, hp, hq⟩ := ih hrest
      exact ⟨p, .up hp, hq⟩
  | down hn hl h ih =>
    cases ms with
    | nil =>
      obtain rfl : ns = _ := hnames
      exact ⟨_, .nil, .down hn hl h⟩
    | cons m ms =>
      obtain ⟨rfl, hrest⟩ := List.cons.inj hnames
      obtain ⟨p, hp, hq⟩ := ih hrest
      exact ⟨p, .down hn hl hp, hq⟩
  | @link _ _ n rest target hn hl h ih =>
    cases ms with
    | nil =>
      obtain rfl : ns = _ := hnames
      exact ⟨_, .nil, .link hn hl h⟩
    | cons m ms =>
      obtain ⟨rfl, rfl⟩ := List.cons.inj hnames
      obtain ⟨p, hp, hq⟩ := ih (List.append_assoc (Path.pieces target) ms ns)
      exact ⟨p, .link hn hl hp, hq⟩

end Arrives

theorem arrives_behind (hroot : t.Rooted) (hd : t.get? here ≠ some .dir) (hn : Path.Plain names) :
    t.Arrives here names (here ++ names) := by
  induction names generalizing here with
  | nil =>
    rw [List.append_nil]
    exact .nil
  | cons n rest ih =>
    obtain ⟨hplain, hrest⟩ := Path.plain_cons.1 hn
    have hnone : t.get? (here ++ [n]) = none := by
      cases he : t.get? (here ++ [n]) with
      | none => rfl
      | some e => exact absurd (hroot here n (by simp [he])) hd
    rw [List.append_cons]
    exact .down hplain (by simp [NoLink, hnone]) (ih (by simp [hnone]) hrest)

theorem Enters.parent (h : t.Enters names p) : t.Arrives [] names.dropLast p.parent := by
  obtain ⟨-, h⟩ := h
  rwa [List.dropLast_concat, Path.parent, List.dropLast_concat]

theorem Enters.unique (h : t.Enters names p) (h' : t.Enters names q) : p = q := by
  obtain ⟨hn, h⟩ := h
  generalize hall : _ ++ [_] = all at h'
  obtain ⟨hn', h'⟩ := h'
  obtain ⟨rfl, hlast⟩ := List.append_inj' hall rfl
  obtain rfl := List.singleton_inj.1 hlast
  rw [h.unique h']

theorem Clear.arrives (h : t.Clear (here ++ names)) (hn : Path.Plain names) :
    t.Arrives here names (here ++ names) := by
  induction names generalizing here with
  | nil =>
    rw [List.append_nil]
    exact .nil
  | cons n rest ih =>
    obtain ⟨hplain, hrest⟩ := Path.plain_cons.1 hn
    rw [List.append_cons] at h ⊢
    exact .down hplain (h _ (List.prefix_append _ _)) (ih h hrest)

theorem LinkFree.clear (hl : t.LinkFree) (p : Path) : t.Clear p := fun q _ => hl q

theorem Clear.put {e : Entry} (h : t.Clear p) (hne : q ≠ [])
    (he : q <+: p → ∀ target, e ≠ .link target) : (t.put q e).Clear p := by
  intro r hr target
  rw [get?_put t hne]
  split
  · next heq => exact fun hlink => he (heq ▸ hr) target (Option.some.inj hlink)
  · exact h r hr target

theorem Clear.mono (h : t.Clear q) (hp : p <+: q) : t.Clear p := fun r hr => h r (hr.trans hp)

theorem Clear.inside (h : t.Clear p) (hp : Path.Plain p) (hb : base <+: p) : t.Inside base p := by
  have h : t.Clear ([] ++ p) := h
  intro q hq
  rwa [hq.unique (h.arrives hp)]

theorem Clear.enters (h : t.Clear p) (hp : Path.Plain p) (hne : p ≠ []) : t.Enters p p := by
  obtain ⟨names, n, rfl⟩ : ∃ names n, p = names ++ [n] :=
    ⟨_, _, (List.dropLast_concat_getLast hne).symm⟩
  obtain ⟨hnames, hn⟩ := Path.plain_append.1 hp
  have hclear : t.Clear ([] ++ names) := h.mono (List.prefix_append names [n])
  exact ⟨(Path.plain_cons.1 hn).1, hclear.arrives hnames⟩

/-- How the system follows names to a spot. -/
inductive Walks (t : FileTree) (last : LastName) : Path → List Name → Path → Prop
  | nil {here : Path} : Walks t last here [] here
  | same {here p : Path} {n : Name} {rest : List Name} (hn : n = [] ∨ n = ['.'])
      (h : Walks t last here rest p) : Walks t last here (n :: rest) p
  | up {here p : Path} {rest : List Name} (h : Walks t last here.parent rest p) :
      Walks t last here (['.', '.'] :: rest) p
  | stop {here : Path} {n : Name} {rest : List Name} (hn : PlainName n) (hl : t.NoLink (here ++ [n]))
      (hrest : ∀ m ∈ rest, m = []) : Walks t last here (n :: rest) (here ++ [n])
  | down {here p : Path} {n : Name} {rest : List Name} (hn : PlainName n)
      (hd : t.get? (here ++ [n]) = some .dir) (h : Walks t last (here ++ [n]) rest p) :
      Walks t last here (n :: rest) p
  | entry {here : Path} {n : Name} (hn : PlainName n) (hlast : last = .entry) :
      Walks t last here [n] (here ++ [n])
  | link {here p : Path} {n : Name} {rest : List Name} {target : Text} (hn : PlainName n)
      (hl : t.get? (here ++ [n]) = some (.link target)) (hon : ¬(rest = [] ∧ last = .entry))
      (h : Walks t last (here.linkStart target) (Path.pieces target ++ rest) p) :
      Walks t last here (n :: rest) p

section Walks

variable {last : LastName} {s : Spot}

theorem path_linkStart {here : Place t} : (linkStart here target).path = here.path.linkStart target := by
  unfold linkStart Path.linkStart
  split <;> rfl

theorem walkNames_walks {onLink : Place t → List Name → Except Errno Spot} {here : Place t}
    (honLink : ∀ here names s, onLink here names = .ok s → t.Walks last here.path names s.path)
    (h : t.walkNames last onLink here names = .ok s) : t.Walks last here.path names s.path := by
  induction names generalizing here with
  | nil =>
    cases h
    exact .nil
  | cons n rest ih =>
    rw [walkNames] at h
    split at h
    · next hn => exact .same hn (ih h)
    · next hn =>
      split at h
      · next hup =>
        subst hup
        have h := ih h
        rw [Place.path_parent] at h
        exact .up h
      · next hup =>
        have hplain : PlainName n := plainName_of_not hn hup
        have hstop {e : Errno} (hl : t.NoLink (here.path ++ [n]))
            (h : (if rest.all (· = []) then .ok ⟨(here.child n).path, rest ≠ []⟩ else .error e) =
              Except.ok s) : t.Walks last here.path (n :: rest) s.path := by
          split at h
          · next hrest =>
            obtain rfl := Except.ok.inj h
            rw [Place.path_child]
            exact .stop hplain hl (by simpa using hrest)
          · cases h
        split at h
        · cases h
        · split at h
          · cases h
          · simp only [entry_child] at h
            split at h
            · next he => exact hstop (by simp [NoLink, he]) h
            · next he => exact hstop (by simp [NoLink, he]) h
            · next he => exact .down hplain he (Place.path_child here n ▸ ih h)
            · next target he =>
              split at h
              · next hlast =>
                obtain ⟨rfl, hlast⟩ := hlast
                obtain rfl := Except.ok.inj h
                rw [Place.path_child]
                exact .entry hplain hlast
              · next hon =>
                exact .link hplain he hon (path_linkStart ▸ honLink _ _ _ h)

theorem locate_walks {links : Nat} {here : Place t} (h : t.locate last links here names = .ok s) :
    t.Walks last here.path names s.path := by
  induction links generalizing here names s with
  | zero =>
    have h : t.walkNames last (fun _ _ => .error .loop) here names = .ok s := h
    refine walkNames_walks ?_ h
    exact fun _ _ _ h => nomatch h
  | succ links ih =>
    have h : t.walkNames last (locate t last links) here names = .ok s := h
    refine walkNames_walks ?_ h
    exact fun _ _ _ h => ih h

theorem spot_walks (h : t.spot last names = .ok s) : t.Walks last [] names s.path := by
  unfold spot at h
  split at h
  · cases h
  · exact locate_walks h

end Walks

section Resolution

def Bare (t : FileTree) (p : Path) : Prop := Path.Plain p ∧ t.Clear p

theorem bare_nil : t.Bare [] := by
  refine ⟨Path.plain_nil, fun q hq target h => ?_⟩
  rw [List.prefix_nil.1 hq] at h
  cases h

theorem Bare.mono (h : t.Bare q) (hp : p <+: q) : t.Bare p := ⟨Path.Plain.mono hp h.1, h.2.mono hp⟩

theorem Bare.linkStart {here : Place t} (h : t.Bare here.path) (target : Text) :
    t.Bare (linkStart here target).path := by
  unfold FileTree.linkStart
  split
  · exact bare_nil
  · exact h

theorem Bare.child (h : t.Bare p) (hn : PlainName n) (hl : t.NoLink (p ++ [n])) :
    t.Bare (p ++ [n]) := by
  refine ⟨Path.plain_append.2 ⟨h.1, Path.plain_cons.2 ⟨hn, Path.plain_nil⟩⟩, fun q hq => ?_⟩
  obtain rfl | hq := List.prefix_concat_iff.1 hq
  · exact hl
  · exact h.2 q hq

/-- Where all links on a path can be resolved, none is left on it. -/
inductive Resolves (t : FileTree) : Resolved → Prop
  | done {p : Path} {known : Links} (h : t.Bare p) (hknown : ∀ e ∈ known, t.Bare e.2) :
      Resolves t (.done p known)
  | stuck {p : RealPath} (h : Path.Plain p.path) : Resolves t (.stuck p)
  | aborted {a : Abort} : Resolves t (.aborted a)

theorem resolveNames_resolves {onLink : Links → Path → Place t → List Name → Resolved}
    {known : Links} {here : Place t}
    (honLink : ∀ known link here names, (∀ e ∈ known, t.Bare e.2) → Path.Plain link →
      t.Bare here.path → t.Resolves (onLink known link here names))
    (hknown : ∀ e ∈ known, t.Bare e.2) (h : t.Bare here.path) :
    t.Resolves (t.resolveNames onLink known here names) := by
  induction names generalizing known here with
  | nil => exact .done h hknown
  | cons n rest ih =>
    rw [resolveNames]
    split
    · exact ih hknown h
    · next hn =>
      split
      · apply ih hknown
        rw [Place.path_parent]
        exact h.mono (List.dropLast_prefix _)
      · next hup =>
        have hplain : PlainName n := plainName_of_not hn hup
        split
        · exact .aborted
        · simp only [Place.path_child]
          split
          · next target he =>
            split
            · next p hp =>
              apply ih hknown
              rw [Place.path_ofPath]
              obtain ⟨before, after, rfl, -⟩ := List.lookup_eq_some_iff.1 hp
              exact hknown (here.path ++ [n], p) (by simp)
            · have hlink := Path.plain_append.2 ⟨h.1, Path.plain_cons.2 ⟨hplain, Path.plain_nil⟩⟩
              have hres := honLink known _ _ (Path.pieces target) hknown hlink (h.linkStart target)
              split
              · next p known' hdone =>
                rw [hdone] at hres
                obtain ⟨hp, hknown'⟩ := hres
                apply ih (List.forall_mem_cons.2 ⟨hp, hknown'⟩)
                rw [Place.path_ofPath]
                exact hp
              · next p hstuck =>
                rw [hstuck] at hres
                cases hres with
                | stuck hp => exact .stuck (Path.Plain.join hp rest)
              · exact .aborted
          · next hne =>
            apply ih hknown
            rw [Place.path_child]
            refine h.child hplain fun target he => hne target ?_
            rw [entry_child, he]

theorem resolveLinks_resolves (depth : Nat) {active : List Path} {known : Links} {here : Place t}
    (hknown : ∀ e ∈ known, t.Bare e.2) (h : t.Bare here.path) :
    t.Resolves (t.resolveLinks depth active known here names) := by
  induction depth generalizing active known here names with
  | zero =>
    rw [resolveLinks]
    refine resolveNames_resolves (fun _ link _ _ _ hlink _ => ?_) hknown h
    split
    · exact .stuck hlink
    · exact .aborted
  | succ depth ih =>
    rw [resolveLinks]
    refine resolveNames_resolves (fun _ link _ _ hknown hlink h => ?_) hknown h
    split
    · exact .stuck hlink
    · exact ih hknown h

theorem resolveLinks_root (t : FileTree) (names : List Name) :
    t.Resolves (t.resolveLinks maxDepth [] [] .root names) :=
  resolveLinks_resolves maxDepth nofun bare_nil

theorem bare_of_resolveLinks {known : Links}
    (h : t.resolveLinks maxDepth [] [] .root names = .done p known) : t.Bare p := by
  have hres := t.resolveLinks_root names
  rw [h] at hres
  obtain ⟨hp, -⟩ := hres
  exact hp

theorem realPath_plain {r : RealPath} (h : t.realPath names = .ok r) : Path.Plain r.path := by
  have hres := t.resolveLinks_root names
  unfold realPath at h
  split at h
  · next p known hp =>
    cases h
    exact (bare_of_resolveLinks hp).1
  · next p hp =>
    cases h
    rw [hp] at hres
    cases hres with
    | stuck hp => exact hp
  · cases h

end Resolution

end FileTree

end Emend
