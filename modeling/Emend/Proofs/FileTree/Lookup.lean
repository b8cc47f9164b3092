import Emend.FileTree.Lookup
import Emend.Proofs.Path

namespace Emend

namespace FileTree

variable {t t' : FileTree} {p : Path} {n : Name}

def LinkFree (t : FileTree) : Prop := ∀ p target, t.get? p ≠ some (.link target)

/-- Each entry of the tree stands in a directory. -/
def Rooted (t : FileTree) : Prop := ∀ p n, (t.get? (p ++ [n])).isSome → t.get? p = some .dir

/-- All that stands above the path are directories. -/
def Holds (t : FileTree) (p : Path) : Prop := ∀ q, q <+: p → q ≠ p → t.get? q = some .dir

theorem holds_concat : t.Holds (p ++ [n]) ↔ t.Holds p ∧ t.get? p = some .dir := by
  constructor
  · intro h
    refine ⟨fun q hq hne => ?_, h p (List.prefix_append p _) (by simp)⟩
    refine h q (hq.trans (List.prefix_append p _)) fun he => ?_
    have := hq.length_le
    rw [he, List.length_append, List.length_singleton] at this
    omega
  · rintro ⟨h, hd⟩ q hq hne
    obtain he | hq := List.prefix_concat_iff.1 hq
    · exact absurd he hne
    · by_cases he : q = p
      · rw [he]
        exact hd
      · exact h q hq he

theorem Holds.of_append {q : Path} (h : t.Holds (p ++ q)) (hq : q ≠ []) : t.get? p = some .dir :=
  h p (List.prefix_append p q) (by simpa using hq)

theorem Holds.mono (h : t.Holds p) (hd : ∀ q, t.get? q = some .dir → t'.get? q = some .dir) :
    t'.Holds p :=
  fun q hq hne => hd q (h q hq hne)

theorem Rooted.get?_of_append (h : t.Rooted) (p : Path) (n : Name) (q : Path)
    (he : (t.get? (p ++ n :: q)).isSome) : t.get? p = some .dir := by
  induction q generalizing p n with
  | nil => exact h p n he
  | cons m q ih =>
    rw [List.append_cons] at he
    have hd := ih (p ++ [n]) m he
    exact h p n (by rw [hd]; rfl)

theorem Rooted.holds (h : t.Rooted) (he : (t.get? p).isSome) : t.Holds p := by
  rintro q ⟨r, rfl⟩ hne
  cases r with
  | nil => simp at hne
  | cons n r => exact h.get?_of_append q n r he

/-- The system takes the path text and the names on it. -/
def Fits (p : Path) : Prop :=
  tooLong p = false ∧ ∀ n ∈ p, n.encode.size ≤ maxNameBytes

theorem get?_of_ne_nil (hp : p ≠ []) : t.get? p = t.lookup p := if_neg hp

theorem entry_child (here : Place t) (n : Name) :
    (here.child n).entry = t.get? (here.path ++ [n]) := by
  rw [Place.entry_eq, Place.path_child, get?_of_ne_nil (by simp)]

private theorem all_eq_nil (h : Path.Plain p) : p.all (· = []) = true ↔ p = [] := by
  cases p with
  | nil => simp
  | cons n p => simp [((Path.plain_cons.1 h).1).1]

section Walk

variable {last : LastName} {onLink : Place t → List Name → Except Errno Spot} {here : Place t}
  {rest : List Name}

private theorem walkNames_plain (hl : t.LinkFree) (hn : Path.Plain (n :: rest)) :
    t.walkNames last onLink here (n :: rest) =
      if maxNameBytes < n.encode.size then .error .nameTooLong
      else if t.get? (here.path ++ [n]) = some .dir then t.walkNames last onLink (here.child n) rest
      else if rest = [] then .ok ⟨here.path ++ [n], false⟩
      else .error (if t.get? (here.path ++ [n]) = none then .noEntry else .notDir) := by
  obtain ⟨⟨hn, hdot, hup⟩, hrest⟩ := Path.plain_cons.1 hn
  rw [walkNames, if_neg (by simp [hn, hdot]), if_neg hup,
    if_neg fun h => h.2.1 ((all_eq_nil hrest).1 h.2.2)]
  simp only [entry_child, all_eq_nil hrest, Place.path_child]
  cases he : t.get? (here.path ++ [n]) with
  | none => by_cases hr : rest = [] <;> simp [hr]
  | some e =>
    cases e with
    | file b => by_cases hr : rest = [] <;> simp [hr]
    | dir => simp
    | link target => exact absurd he (hl _ target)

/-- Names that the system takes lead on exactly where directories hold what they lead to. -/
theorem walkNames_eq_ok (hl : t.LinkFree) {names : List Name} {s : Spot} (hn : Path.Plain names)
    (hh : t.Holds here.path) (hd : t.get? here.path = some .dir) :
    t.walkNames last onLink here names = .ok s ↔
      (∀ n ∈ names, n.encode.size ≤ maxNameBytes) ∧ t.Holds (here.path ++ names) ∧
        s = ⟨here.path ++ names, false⟩ := by
  induction names generalizing here with
  | nil =>
    simp only [walkNames, List.append_nil, Except.ok.injEq]
    exact ⟨fun h => ⟨nofun, hh, h.symm⟩, fun h => h.2.2.symm⟩
  | cons n rest ih =>
    have hthere : t.Holds (here.path ++ [n]) := holds_concat.2 ⟨hh, hd⟩
    rw [List.forall_mem_cons, List.append_cons, walkNames_plain hl hn]
    split
    · next hlong => exact ⟨nofun, fun h => absurd h.1.1 (Nat.not_le.2 hlong)⟩
    · next hshort =>
      rw [and_iff_right (Nat.not_lt.1 hshort)]
      split
      · next hdir =>
        have ih := @ih (here.child n) (Path.plain_cons.1 hn).2
        rw [Place.path_child] at ih
        exact ih hthere hdir
      · next hdir =>
        split
        · next hr =>
          rw [hr, List.append_nil, Except.ok.injEq]
          exact ⟨fun h => ⟨nofun, hthere, h.symm⟩, fun h => h.2.2.symm⟩
        · next hr => exact ⟨nofun, fun h => absurd (h.2.1.of_append hr) hdir⟩

end Walk

theorem locate_eq_ok (hl : t.LinkFree) {last : LastName} {s : Spot} (hp : Path.Plain p) :
    t.locate last maxLinks .root p = .ok s ↔
      (∀ n ∈ p, n.encode.size ≤ maxNameBytes) ∧ t.Holds p ∧ s = ⟨p, false⟩ := by
  have hroot : t.Holds (Place.root : Place t).path := fun q hq hne =>
    absurd (List.prefix_nil.1 hq) hne
  rw [locate.eq_def]
  exact walkNames_eq_ok hl hp hroot rfl

theorem spot_eq_ok (hl : t.LinkFree) {last : LastName} {s : Spot} (hp : Path.Plain p) :
    t.spot last p = .ok s ↔ Fits p ∧ t.Holds p ∧ s = ⟨p, false⟩ := by
  unfold spot
  split
  · next hlong => exact ⟨nofun, fun h => by rw [h.1.1] at hlong; cases hlong⟩
  · next hshort =>
    rw [locate_eq_ok hl hp, Fits, and_iff_right (Bool.eq_false_iff.2 hshort)]

theorem find_eq_ok (hl : t.LinkFree) {e : Entry} (hp : Path.Plain p) :
    t.find p = .ok e ↔ Fits p ∧ t.Holds p ∧ t.get? p = some e := by
  unfold find
  split
  · next e' he =>
    refine ⟨nofun, fun h => ?_⟩
    rw [(spot_eq_ok hl hp).2 ⟨h.1, h.2.1, rfl⟩] at he
    cases he
  · next s hs =>
    obtain ⟨hfits, hholds, rfl⟩ := (spot_eq_ok hl hp).1 hs
    rw [and_iff_right hfits, and_iff_right hholds]
    split
    · next hg => simp [hg]
    · next hg => simp [hg]
    · next hg => simp [hg]

theorem has_iff (hl : t.LinkFree) (hp : Path.Plain p) :
    t.has p ↔ Fits p ∧ t.Holds p ∧ (t.get? p).isSome := by
  constructor
  · intro h
    obtain ⟨e, he⟩ : ∃ e, t.find p = .ok e := by
      unfold has at h
      cases hf : t.find p with
      | ok e => exact ⟨e, rfl⟩
      | error e => simp [hf, Except.isOk, Except.toBool] at h
    obtain ⟨hfits, hholds, hg⟩ := (find_eq_ok hl hp).1 he
    exact ⟨hfits, hholds, by rw [hg]; rfl⟩
  · rintro ⟨hfits, hholds, hg⟩
    obtain ⟨e, he⟩ := Option.isSome_iff_exists.1 hg
    rw [has, (find_eq_ok hl hp).2 ⟨hfits, hholds, he⟩]
    rfl

theorem Rooted.has (h : t.Rooted) (hl : t.LinkFree) (hp : Path.Plain p) (hfits : Fits p)
    (hsome : (t.get? p).isSome) : t.has p = true :=
  (has_iff hl hp).2 ⟨hfits, h.holds hsome, hsome⟩

theorem Rooted.has_congr {t' : FileTree} (h : t.Rooted) (hl : t.LinkFree) (hl' : t'.LinkFree)
    (hp : Path.Plain p) (he : t'.get? p = t.get? p) (hhas : t'.has p = true) : t.has p = true := by
  obtain ⟨hfits, -, hsome⟩ := (has_iff hl' hp).1 hhas
  rw [he] at hsome
  exact h.has hl hp hfits hsome

theorem Rooted.get?_eq_none (h : t.Rooted) (hl : t.LinkFree) (hp : Path.Plain p) (hfits : Fits p)
    (hn : t.has p = false) : t.get? p = none := by
  cases he : t.get? p with
  | none => rfl
  | some e =>
    have hsome : (t.get? p).isSome := by
      rw [he]
      rfl
    rw [h.has hl hp hfits hsome] at hn
    cases hn

section RealPath

variable {onLink : Links → Path → Place t → List Name → Resolved} {known : Links} {names : List Name}

theorem resolveNames_eq_done (hl : t.LinkFree) {here : Place t} {r : Resolved}
    (h : t.resolveNames onLink known here names = r) :
    r = .aborted .nullCharacter ∨ r = .done (here.path.walk names) known := by
  induction names generalizing here with
  | nil => exact .inr h.symm
  | cons n rest ih =>
    rw [resolveNames] at h
    rw [Path.walk_cons, Path.step]
    split at h
    · next hn =>
      rw [if_pos hn]
      exact ih h
    · next hn =>
      rw [if_neg hn]
      split at h
      · next hup =>
        rw [if_pos hup, ← Place.path_parent]
        exact ih h
      · next hup =>
        rw [if_neg hup, ← Place.path_child]
        split at h
        · exact .inl h.symm
        · dsimp only at h
          split at h
          · next target he =>
            rw [entry_child] at he
            exact absurd he (hl _ target)
          · exact ih h

/-- Without links, names lead where they lead whatever the tree holds. -/
theorem realPath_eq_ok (hl : t.LinkFree) {r : RealPath} (h : t.realPath names = .ok r) :
    r = ⟨Path.walk [] names, false⟩ := by
  unfold realPath at h
  rw [resolveLinks.eq_def] at h
  obtain hr | hr := resolveNames_eq_done hl
    (rfl : t.resolveNames _ [] (Place.root : Place t) names = _)
  · rw [hr] at h
    cases h
  · rw [hr] at h
    exact (Except.ok.inj h).symm

end RealPath

end FileTree

end Emend
