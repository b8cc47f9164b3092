import Emend.Proofs.FileTree.Confined

namespace Emend

namespace FileTree

variable {base dir here q : Path} {firm : Path → Prop} {t₀ t t' : FileTree} {n : Name}
  {names rest : List Name} {target : Text} {last : LastName} {links : Nat}

section Steps

variable {here : Place t}

theorem locate_nil : t.locate last links here [] = .ok ⟨here.path, false⟩ := by
  rw [locate.eq_def, walkNames]

theorem locate_same (hn : n = [] ∨ n = ['.']) :
    t.locate last links here (n :: rest) = t.locate last links here rest := by
  rw [locate.eq_def, walkNames, if_pos hn, ← locate.eq_def]

theorem locate_up :
    t.locate last links here (['.', '.'] :: rest) = t.locate last links here.parent rest := by
  rw [locate.eq_def, walkNames, if_neg (by simp), if_pos rfl, ← locate.eq_def]

theorem locate_plain (hn : PlainName n)
    (hfile : ¬(last = .newFile ∧ rest ≠ [] ∧ rest.all (· = []) = true)) :
    t.locate last links here (n :: rest) =
      if maxNameBytes < n.encode.size then .error .nameTooLong
      else
        match t.get? (here.path ++ [n]) with
        | none => if rest.all (· = []) then .ok ⟨here.path ++ [n], rest ≠ []⟩ else .error .noEntry
        | some (.file _) => if rest.all (· = []) then .ok ⟨here.path ++ [n], rest ≠ []⟩ else .error .notDir
        | some .dir => t.locate last links (here.child n) rest
        | some (.link target) =>
          if rest = [] ∧ last = .entry then .ok ⟨here.path ++ [n], false⟩
          else
            match links with
            | 0 => .error .loop
            | links + 1 => t.locate last links (linkStart here target) (Path.pieces target ++ rest) := by
  obtain ⟨hne, hdot, hup⟩ := hn
  rw [locate.eq_def, walkNames, if_neg (not_or.2 ⟨hne, hdot⟩), if_neg hup, if_neg hfile]
  simp only [entry_child, Place.path_child]
  cases links <;> rfl

end Steps

/-- On the way from `here` along the names, the link at the path is followed. -/
inductive Follows (t : FileTree) : Path → List Name → Path → Prop
  | same {here q : Path} {n : Name} {rest : List Name} (hn : n = [] ∨ n = ['.'])
      (h : Follows t here rest q) : Follows t here (n :: rest) q
  | up {here q : Path} {rest : List Name} (h : Follows t here.parent rest q) :
      Follows t here (['.', '.'] :: rest) q
  | down {here q : Path} {n : Name} {rest : List Name} (hn : PlainName n)
      (hl : t.NoLink (here ++ [n])) (h : Follows t (here ++ [n]) rest q) : Follows t here (n :: rest) q
  | here {here : Path} {n : Name} {rest : List Name} {target : Text} (hn : PlainName n)
      (hl : t.get? (here ++ [n]) = some (.link target)) : Follows t here (n :: rest) (here ++ [n])
  | link {here q : Path} {n : Name} {rest : List Name} {target : Text} (hn : PlainName n)
      (hl : t.get? (here ++ [n]) = some (.link target))
      (h : Follows t (here.linkStart target) (Path.pieces target ++ rest) q) :
      Follows t here (n :: rest) q

theorem Follows.exists_link (h : t.Follows here names q) :
    ∃ target, t.get? q = some (.link target) := by
  induction h with
  | same _ _ ih => exact ih
  | up _ ih => exact ih
  | down _ _ _ ih => exact ih
  | here _ hl => exact ⟨_, hl⟩
  | link _ _ _ ih => exact ih

/-- The names lead from `here` on to a directory, through so many links at most. -/
inductive Opens (t : FileTree) : Nat → Path → List Name → Path → Prop
  | nil {links : Nat} {dir : Path} (hd : t.get? dir = some .dir) : Opens t links dir [] dir
  | same {links : Nat} {here dir : Path} {n : Name} {rest : List Name} (hn : n = [] ∨ n = ['.'])
      (h : Opens t links here rest dir) : Opens t links here (n :: rest) dir
  | up {links : Nat} {here dir : Path} {rest : List Name} (h : Opens t links here.parent rest dir) :
      Opens t links here (['.', '.'] :: rest) dir
  | down {links : Nat} {here dir : Path} {n : Name} {rest : List Name} (hn : PlainName n)
      (hshort : n.encode.size ≤ maxNameBytes) (hd : t.get? (here ++ [n]) = some .dir)
      (h : Opens t links (here ++ [n]) rest dir) : Opens t links here (n :: rest) dir
  | link {links : Nat} {here dir : Path} {n : Name} {rest : List Name} {target : Text}
      (hn : PlainName n) (hshort : n.encode.size ≤ maxNameBytes)
      (hl : t.get? (here ++ [n]) = some (.link target))
      (h : Opens t links (here.linkStart target) (Path.pieces target ++ rest) dir) :
      Opens t (links + 1) here (n :: rest) dir

theorem locate_opens {here : Place t} {s : Spot} (h : t.locate .content links here names = .ok s)
    (hd : t.get? s.path = some .dir) : t.Opens links here.path names s.path := by
  -- Links are fewer once one is followed; up to there, names are.
  induction links using Nat.strongRecOn generalizing here names with
  | ind links ihlinks =>
    induction names generalizing here with
    | nil =>
      rw [locate_nil] at h
      cases h
      exact .nil hd
    | cons n rest ih =>
      by_cases hn : n = [] ∨ n = ['.']
      · exact .same hn (ih (locate_same hn ▸ h))
      by_cases hup : n = ['.', '.']
      · subst hup
        have hopens := ih (locate_up ▸ h)
        rw [Place.path_parent] at hopens
        exact .up hopens
      have hplain : PlainName n := plainName_of_not hn hup
      have hstop {e : Option Entry} (he : t.get? (here.path ++ [n]) = e) (hne : e ≠ some .dir)
          {slash : Bool} : s ≠ ⟨here.path ++ [n], slash⟩ := by
        rintro rfl
        exact hne (he.symm.trans hd)
      rw [locate_plain hplain (by simp)] at h
      split at h
      · cases h
      · next hshort =>
        have hshort := Nat.not_lt.1 hshort
        split at h
        · next he =>
          split at h
          · exact absurd (Except.ok.inj h).symm (hstop he nofun)
          · cases h
        · next he =>
          split at h
          · exact absurd (Except.ok.inj h).symm (hstop he nofun)
          · cases h
        · next he =>
          have hopens := ih h
          rw [Place.path_child] at hopens
          exact .down hplain hshort he hopens
        · next target he =>
          rw [if_neg (by simp)] at h
          cases links with
          | zero => cases h
          | succ links =>
            have hopens := ihlinks links (Nat.lt_succ_self links) h
            rw [path_linkStart] at hopens
            exact .link hplain hshort he hopens

namespace Opens

theorem locate_concat (h : t.Opens links q names dir) (hn : PlainName n)
    (hlast : last = .entry ∨ t.NoLink (dir ++ [n])) {here : Place t} (hhere : here.path = q) :
    t.locate last links here (names ++ [n]) =
      if maxNameBytes < n.encode.size then .error .nameTooLong else .ok ⟨dir ++ [n], false⟩ := by
  have hblank (rest : List Name) :
      ¬(last = .newFile ∧ rest ++ [n] ≠ [] ∧ (rest ++ [n]).all (· = []) = true) := by
    simp [hn.1]
  induction h generalizing here with
  | nil hd =>
    rw [List.nil_append, locate_plain hn (by simp), hhere]
    split
    · rfl
    · split
      · rfl
      · rfl
      · rw [locate_nil, Place.path_child, hhere]
      · next target he => rw [if_pos ⟨rfl, hlast.resolve_right fun hl => hl target he⟩]
  | same hm _ ih => rw [List.cons_append, locate_same hm, ih hlast hhere]
  | up _ ih =>
    rw [List.cons_append, locate_up, ih hlast (by rw [Place.path_parent, hhere]; rfl)]
  | down hm hshort hd _ ih =>
    rw [List.cons_append, locate_plain hm (hblank _), if_neg (Nat.not_lt.2 hshort), hhere, hd]
    exact ih hlast (by rw [Place.path_child, hhere])
  | link hm hshort hl _ ih =>
    rw [List.cons_append, locate_plain hm (hblank _), if_neg (Nat.not_lt.2 hshort), hhere, hl]
    dsimp only
    rw [if_neg (by simp), ← List.append_assoc]
    exact ih hlast (by rw [path_linkStart, hhere])

theorem spot_concat_eq_ok (h : t.Opens maxLinks [] names dir) (hn : PlainName n)
    (hlast : last = .entry ∨ t.NoLink (dir ++ [n])) {s : Spot} :
    t.spot last (names ++ [n]) = .ok s ↔
      tooLong (names ++ [n]) = false ∧ n.encode.size ≤ maxNameBytes ∧ s = ⟨dir ++ [n], false⟩ := by
  rw [spot, h.locate_concat hn hlast rfl]
  split
  · next hlong => simp [hlong]
  · next hlong =>
    rw [and_iff_right (Bool.eq_false_iff.2 hlong)]
    split
    · next hsize => simp [Nat.not_le.2 hsize]
    · next hsize => rw [and_iff_right (Nat.not_lt.1 hsize), Except.ok.injEq, eq_comm]

theorem arrives (h : t.Opens links here names dir) (hc : Confined base firm t₀ t) :
    t₀.Arrives here names dir := by
  induction h with
  | nil => exact .nil
  | same hn _ ih => exact .same hn ih
  | up _ ih => exact .up ih
  | down hn _ hd _ ih => exact .down hn (hc.noLink_of_dir hd) ih
  | link hn _ hl _ ih => exact .link hn (hc.links _ _ hl) ih

theorem keeps (h : t.Opens links here names dir) (hc : Confined base firm t₀ t)
    (hk : Keeps base firm t₀ t t') (hfirm : ∀ q, t₀.Follows here names q → firm q) :
    t'.Opens links here names dir := by
  induction h with
  | nil hd => exact .nil (hk.dirs _ hd)
  | same hn _ ih => exact .same hn (ih fun q hq => hfirm q (.same hn hq))
  | up _ ih => exact .up (ih fun q hq => hfirm q (.up hq))
  | down hn hshort hd _ ih =>
    exact .down hn hshort (hk.dirs _ hd) (ih fun q hq => hfirm q (.down hn (hc.noLink_of_dir hd) hq))
  | link hn hshort hl _ ih =>
    have hl₀ := hc.links _ _ hl
    have hstays := (hk.confined.kept _ _ hl₀).resolve_right fun hgone => hgone.1 (hfirm _ (.here hn hl₀))
    exact .link hn hshort hstays (ih fun q hq => hfirm q (.link hn hl₀ hq))

end Opens

end FileTree

end Emend
