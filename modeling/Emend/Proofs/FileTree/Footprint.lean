import Emend.Proofs.FileTree.Route

namespace Emend

namespace FileTree

variable {t t' : FileTree} {here q : Path} {names : List Name} {links : Nat}

/-- On the way from `here` along the names, through so many links at most, the entry at the path is
asked for. -/
inductive Asks (t : FileTree) : Nat → Path → List Name → Path → Prop
  | same {links : Nat} {here q : Path} {n : Name} {rest : List Name} (hn : n = [] ∨ n = ['.'])
      (h : Asks t links here rest q) : Asks t links here (n :: rest) q
  | up {links : Nat} {here q : Path} {rest : List Name} (h : Asks t links here.parent rest q) :
      Asks t links here (['.', '.'] :: rest) q
  | here {links : Nat} {here : Path} {n : Name} {rest : List Name} (hn : PlainName n)
      (hshort : n.encode.size ≤ maxNameBytes) : Asks t links here (n :: rest) (here ++ [n])
  | down {links : Nat} {here q : Path} {n : Name} {rest : List Name} (hn : PlainName n)
      (hd : t.get? (here ++ [n]) = some .dir) (h : Asks t links (here ++ [n]) rest q) :
      Asks t links here (n :: rest) q
  | link {links : Nat} {here q : Path} {n : Name} {rest : List Name} {target : Text} (hn : PlainName n)
      (hl : t.get? (here ++ [n]) = some (.link target))
      (h : Asks t links (here.linkStart target) (Path.pieces target ++ rest) q) :
      Asks t (links + 1) here (n :: rest) q

/-- The trees agree on the directory `here` and what is above it, and on the entries that are asked for
from there. -/
structure AgreesFrom (t t' : FileTree) (links : Nat) (here : Path) (names : List Name) : Prop where
  above : ∀ q, q <+: here → t'.get? q = t.get? q
  asked : ∀ q, t.Asks links here names q → t'.get? q = t.get? q

namespace AgreesFrom

variable {n : Name} {rest : List Name} {target : Text}

theorem same (hn : n = [] ∨ n = ['.']) (h : AgreesFrom t t' links here (n :: rest)) :
    AgreesFrom t t' links here rest :=
  ⟨h.above, fun q hq => h.asked q (.same hn hq)⟩

theorem up (h : AgreesFrom t t' links here (['.', '.'] :: rest)) :
    AgreesFrom t t' links here.parent rest :=
  ⟨fun q hq => h.above q (hq.trans (Path.parent_isPrefix _)), fun q hq => h.asked q (.up hq)⟩

theorem there (hn : PlainName n) (hshort : n.encode.size ≤ maxNameBytes)
    (h : AgreesFrom t t' links here (n :: rest)) : t'.get? (here ++ [n]) = t.get? (here ++ [n]) :=
  h.asked _ (.here hn hshort)

theorem down (hn : PlainName n) (hshort : n.encode.size ≤ maxNameBytes)
    (hd : t.get? (here ++ [n]) = some .dir) (h : AgreesFrom t t' links here (n :: rest)) :
    AgreesFrom t t' links (here ++ [n]) rest := by
  refine ⟨fun q hq => ?_, fun q hq => h.asked q (.down hn hd hq)⟩
  obtain rfl | hq := List.prefix_concat_iff.1 hq
  · exact h.there hn hshort
  · exact h.above q hq

theorem link (hn : PlainName n) (hl : t.get? (here ++ [n]) = some (.link target))
    (h : AgreesFrom t t' (links + 1) here (n :: rest)) :
    AgreesFrom t t' links (here.linkStart target) (Path.pieces target ++ rest) := by
  refine ⟨fun q hq => ?_, fun q hq => h.asked q (.link hn hl hq)⟩
  rw [Path.linkStart] at hq
  split at hq
  · rw [List.prefix_nil.1 hq]
    rfl
  · exact h.above q hq

end AgreesFrom

/-- In trees that agree, the same names lead to the same spot, and to the same entry there. -/
theorem locate_congr {here : Place t} {here' : Place t'} (hpath : here'.path = here.path)
    (h : AgreesFrom t t' links here.path names) :
    t'.locate .content links here' names = t.locate .content links here names ∧
      ∀ s, t.locate .content links here names = .ok s → t'.get? s.path = t.get? s.path := by
  -- Links are fewer once one is followed; up to there, names are.
  induction links using Nat.strongRecOn generalizing here here' names with
  | ind links ihlinks =>
    induction names generalizing here here' with
    | nil =>
      rw [locate_nil, locate_nil, hpath]
      refine ⟨rfl, fun s hs => ?_⟩
      cases hs
      exact h.above _ (List.prefix_refl _)
    | cons n rest ih =>
      by_cases hn : n = [] ∨ n = ['.']
      · rw [locate_same hn, locate_same hn]
        exact ih hpath (h.same hn)
      by_cases hup : n = ['.', '.']
      · subst hup
        rw [locate_up, locate_up]
        exact ih (by rw [Place.path_parent, Place.path_parent, hpath]) (Place.path_parent here ▸ h.up)
      have hplain : PlainName n := plainName_of_not hn hup
      rw [locate_plain hplain (by simp), locate_plain hplain (by simp), hpath]
      split
      · exact ⟨rfl, nofun⟩
      · next hshort =>
        have hshort := Nat.not_lt.1 hshort
        have hthere := h.there hplain hshort
        have hstop {e : Errno} (s : Spot)
            (hs : (if rest.all (· = []) then .ok ⟨here.path ++ [n], rest ≠ []⟩ else .error e) =
              Except.ok s) : t'.get? s.path = t.get? s.path := by
          split at hs
          · cases hs
            exact hthere
          · cases hs
        rw [hthere]
        split
        · exact ⟨rfl, hstop⟩
        · exact ⟨rfl, hstop⟩
        · next hd =>
          refine ih (by rw [Place.path_child, Place.path_child, hpath]) ?_
          exact (Place.path_child here n).symm ▸ h.down hplain hshort hd
        · next target hl =>
          rw [if_neg (by simp), if_neg (by simp)]
          cases links with
          | zero => exact ⟨rfl, nofun⟩
          | succ links =>
            refine ihlinks links (Nat.lt_succ_self links) (by rw [path_linkStart, path_linkStart, hpath]) ?_
            rw [path_linkStart]
            exact h.link hplain hl

theorem find_congr (h : ∀ q, t.Asks maxLinks [] names q → t'.get? q = t.get? q) :
    t'.find names = t.find names := by
  have hagree : AgreesFrom t t' maxLinks (Place.root : Place t).path names := by
    refine ⟨fun q hq => ?_, h⟩
    rw [List.prefix_nil.1 hq]
    rfl
  have hpath : (Place.root : Place t').path = (Place.root : Place t).path := rfl
  obtain ⟨hsame, hentry⟩ := locate_congr hpath hagree
  unfold find spot
  rw [hsame]
  by_cases hlong : tooLong names
  · rw [if_pos hlong]
  · rw [if_neg hlong]
    cases hs : t.locate .content maxLinks .root names with
    | error e => rfl
    | ok s => simp only [hentry s hs]

theorem Asks.isPrefix_or_follows (h : t.Asks links here names q) (hp : Path.Plain names) :
    q <+: here ++ names ∨ ∃ l, t.Follows here names l := by
  induction h with
  | same hn _ _ =>
    obtain ⟨hplain, -⟩ := Path.plain_cons.1 hp
    exact absurd hn (not_or.2 ⟨hplain.1, hplain.2.1⟩)
  | up => exact absurd rfl (Path.plain_cons.1 hp).1.2.2
  | @here _ here n rest _ _ => exact .inl ⟨rest, (List.append_cons here n rest).symm⟩
  | down hn hd _ ih =>
    rw [List.append_cons]
    refine (ih (Path.plain_cons.1 hp).2).imp_right ?_
    rintro ⟨l, hl⟩
    exact ⟨l, .down hn (.of_dir hd) hl⟩
  | link hn hl _ _ => exact .inr ⟨_, .here hn hl⟩

end FileTree

end Emend
