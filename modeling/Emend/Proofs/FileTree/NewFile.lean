import Emend.Proofs.FileTree.Route

namespace Emend

namespace FileTree

variable {t t' : FileTree} {here p q : Path} {n : Name} {names rest : List Name} {s : Spot}

/-- The names lead through directories to a place for a file. A name before slashes at the end leads
to none. -/
inductive Lodges (t : FileTree) : Path → List Name → Path → Prop
  | nil {here : Path} : Lodges t here [] here
  | same {here p : Path} {n : Name} {rest : List Name} (hn : n = [] ∨ n = ['.'])
      (h : Lodges t here rest p) : Lodges t here (n :: rest) p
  | up {here p : Path} {rest : List Name} (h : Lodges t here.parent rest p) :
      Lodges t here (['.', '.'] :: rest) p
  | down {here p : Path} {n : Name} {rest : List Name} (hn : PlainName n)
      (hon : ¬(rest ≠ [] ∧ rest.all (· = []) = true)) (hshort : n.encode.size ≤ maxNameBytes)
      (hd : t.get? (here ++ [n]) = some .dir) (h : Lodges t (here ++ [n]) rest p) :
      Lodges t here (n :: rest) p
  | last {here : Path} {n : Name} (hn : PlainName n) (hshort : n.encode.size ≤ maxNameBytes) :
      Lodges t here [n] (here ++ [n])

theorem Holds.of_isPrefix (h : t.Holds p) (hq : q <+: p) : t.Holds q := by
  intro r hr hne
  refine h r (hr.trans hq) fun he => hne ?_
  exact hr.eq_of_length_le (he ▸ hq.length_le)

namespace Lodges

theorem mono (h : t.Lodges here names p) (hd : ∀ q, t.get? q = some .dir → t'.get? q = some .dir) :
    t'.Lodges here names p := by
  induction h with
  | nil => exact .nil
  | same hn _ ih => exact .same hn ih
  | up _ ih => exact .up ih
  | down hn hon hshort hdir _ ih => exact .down hn hon hshort (hd _ hdir) ih
  | last hn hshort => exact .last hn hshort

theorem holds (h : t.Lodges here names p) (hholds : t.Holds here) (hd : t.get? here = some .dir) :
    t.Holds p := by
  induction h with
  | nil => exact hholds
  | same _ _ ih => exact ih hholds hd
  | @up here _ _ _ ih =>
    have hparent := Path.parent_isPrefix here
    refine ih (hholds.of_isPrefix hparent) ?_
    by_cases he : here.parent = here
    · rw [he, hd]
    · exact hholds _ hparent he
  | down _ _ _ hdir _ ih => exact ih (holds_concat.2 ⟨hholds, hd⟩) hdir
  | last => exact holds_concat.2 ⟨hholds, hd⟩

theorem mem (h : t.Lodges here names p) : ∀ n ∈ p, n ∈ here ∨ n ∈ names := by
  have hstep {here : Path} {n m : Name} {rest : List Name} (hm : m ∈ here ++ [n] ∨ m ∈ rest) :
      m ∈ here ∨ m ∈ n :: rest := by
    rw [List.mem_append, List.mem_singleton, or_assoc, ← List.mem_cons] at hm
    exact hm
  induction h with
  | nil => exact fun _ hm => .inl hm
  | same _ _ ih => exact fun m hm => (ih m hm).imp_right (List.mem_cons_of_mem _)
  | up _ ih =>
    exact fun m hm => (ih m hm).imp (fun h => List.dropLast_subset _ h) (List.mem_cons_of_mem _)
  | down _ _ _ _ _ ih => exact fun m hm => hstep (ih m hm)
  | last => exact fun m hm => hstep (.inl hm)

theorem locate (h : t.Lodges q names p) (hl : t.LinkFree) {links : Nat} {here : Place t}
    (hhere : here.path = q) : t.locate .newFile links here names = .ok ⟨p, false⟩ := by
  induction h generalizing here with
  | nil => rw [locate_nil, hhere]
  | same hn _ ih => rw [locate_same hn, ih hhere]
  | up _ ih =>
    rw [locate_up]
    exact ih (by rw [Place.path_parent, hhere]; rfl)
  | down hn hon hshort hd h ih =>
    rw [locate_plain hn fun hfile => hon hfile.2, if_neg (Nat.not_lt.2 hshort), hhere, hd]
    exact ih (by rw [Place.path_child, hhere])
  | @last q n hn hshort =>
    rw [locate_plain hn (by simp), if_neg (Nat.not_lt.2 hshort), hhere]
    cases he : t.get? (q ++ [n]) with
    | none => rfl
    | some e =>
      cases e with
      | file b => rfl
      | dir =>
        dsimp only
        rw [locate_nil, Place.path_child, hhere]
      | link target => exact absurd he (hl _ target)

end Lodges

theorem locate_lodges (hl : t.LinkFree) {links : Nat} {here : Place t}
    (h : t.locate .newFile links here names = .ok s) :
    s.slash = false ∧ t.Lodges here.path names s.path := by
  induction names generalizing here with
  | nil =>
    rw [locate_nil] at h
    cases h
    exact ⟨rfl, .nil⟩
  | cons n rest ih =>
    by_cases hn : n = [] ∨ n = ['.']
    · rw [locate_same hn] at h
      exact (ih h).imp_right (.same hn)
    by_cases hup : n = ['.', '.']
    · subst hup
      rw [locate_up] at h
      have hlodges := ih h
      rw [Place.path_parent] at hlodges
      exact hlodges.imp_right .up
    have hplain : PlainName n := plainName_of_not hn hup
    by_cases hon : rest ≠ [] ∧ rest.all (· = []) = true
    · rw [locate.eq_def, walkNames, if_neg hn, if_neg hup, if_pos ⟨rfl, hon⟩] at h
      cases h
    rw [locate_plain hplain fun hfile => hon hfile.2] at h
    split at h
    · cases h
    · next hshort =>
      have hshort := Nat.not_lt.1 hshort
      have hstop {e : Errno} (h : (if rest.all (· = []) = true then .ok ⟨here.path ++ [n], rest ≠ []⟩
          else .error e) = Except.ok s) : s.slash = false ∧ t.Lodges here.path (n :: rest) s.path := by
        split at h
        · next hrest =>
          obtain rfl : rest = [] := Decidable.not_not.1 fun hne => hon ⟨hne, hrest⟩
          cases h
          exact ⟨rfl, .last hplain hshort⟩
        · cases h
      split at h
      · exact hstop h
      · exact hstop h
      · next hd =>
        have hlodges := ih h
        rw [Place.path_child] at hlodges
        exact hlodges.imp_right (.down hplain hon hshort hd)
      · next target he => exact absurd he (hl _ target)

/-- A file can be put at the place that the names of a call lead to. It is the same place in any tree
without links that has the directories. -/
theorem callSpot_newFile (hl : t.LinkFree) (h : t.callSpot .newFile names = .ok s) :
    t.Holds s.path ∧ (∀ n ∈ s.path, n ∈ names) ∧
      ∀ t' : FileTree, t'.LinkFree → (∀ q, t.get? q = some .dir → t'.get? q = some .dir) →
        t'.callSpot .newFile names = .ok s := by
  obtain ⟨hnull, hs⟩ := callSpot_eq_ok.1 h
  unfold spot at hs
  split at hs
  · cases hs
  · next hlong =>
    obtain ⟨hslash, hlodges⟩ := locate_lodges hl hs
    refine ⟨hlodges.holds (fun q hq hne => absurd (List.prefix_nil.1 hq) hne) rfl,
      fun n hn => (hlodges.mem n hn).resolve_left nofun, fun t' hl' hd => ?_⟩
    rw [callSpot_eq_ok, spot, if_neg hlong, (hlodges.mono hd).locate hl' rfl]
    exact ⟨hnull, by rw [← hslash]⟩

/-- At most a file has been made or overwritten, at one of the places. -/
inductive Overwrites (P : Path → Prop) (t : FileTree) : FileTree → Prop
  | none : Overwrites P t t
  | file {p : Path} {b : ByteArray} (hp : P p) (hholds : t.Holds p) (hfree : t.get? p ≠ some .dir) :
      Overwrites P t (t.put p (.file b))

namespace Overwrites

variable {P : Path → Prop} (h : t.Overwrites P t')
include h

theorem linkFree (hl : t.LinkFree) : t'.LinkFree := by
  cases h with
  | none => exact hl
  | file _ _ hfree => exact hl.put (ne_nil_of_get? rfl hfree) nofun

theorem rooted (hroot : t.Rooted) : t'.Rooted := by
  cases h with
  | none => exact hroot
  | file _ hholds hfree => exact hroot.put_of_holds hholds hfree

theorem get?_of_not (hp : ¬P p) : t'.get? p = t.get? p := by
  cases h with
  | none => rfl
  | @file q b hq _ hfree =>
    have hne : p ≠ q := fun he => hp (he ▸ hq)
    exact (get?_put t (ne_nil_of_get? rfl hfree) _ p).trans (if_neg hne)

theorem get?_dir : t'.get? p = some .dir ↔ t.get? p = some .dir := by
  cases h with
  | none => rfl
  | @file q b _ _ hfree =>
    rw [get?_put t (ne_nil_of_get? rfl hfree)]
    split
    · next he => simp [he, hfree]
    · rfl

theorem isSome_get? (hp : (t.get? p).isSome) : (t'.get? p).isSome := by
  cases h with
  | none => exact hp
  | file _ _ hfree =>
    rw [get?_put t (ne_nil_of_get? rfl hfree)]
    split
    · rfl
    · exact hp

end Overwrites

end FileTree

end Emend
