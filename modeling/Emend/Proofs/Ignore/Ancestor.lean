import Emend.Apply
import Emend.Proofs.Apply.Protection
import Emend.Proofs.Ignore.Nearest
import Emend.Proofs.Path.Spelling
import Mathlib.Data.List.Find
import Mathlib.Data.List.Infix

namespace Emend

namespace Path

theorem intercalate_ne_nil {ns : List Name} (hne : ns ≠ []) (hns : ∀ n ∈ ns, n ≠ []) :
    ['/'].intercalate ns ≠ [] := by
  obtain ⟨n, ns, rfl⟩ := List.exists_cons_of_ne_nil hne
  cases ns with
  | nil => simpa using hns n
  | cons m ns => simp [List.intercalate_cons_cons]

theorem intercalate_eq_append {ns : List Name} {s t : Text} (hne : ns ≠ []) (hns : ∀ n ∈ ns, '/' ∉ n) :
    ['/'].intercalate ns = s ++ '/' :: t ↔
      ∃ before after, ns = before ++ after ∧ before ≠ [] ∧ after ≠ [] ∧
        s = ['/'].intercalate before ∧ t = ['/'].intercalate after := by
  constructor
  · intro h
    have hsplit : ns = pieces s ++ pieces t := by
      rw [← pieces_append, ← h]
      exact (List.splitOn_intercalate _ hns hne).symm
    exact ⟨pieces s, pieces t, hsplit, List.splitOn_ne_nil _ _, List.splitOn_ne_nil _ _,
      (intercalate_pieces s).symm, (intercalate_pieces t).symm⟩
  · rintro ⟨before, after, rfl, hbefore, hafter, rfl, rfl⟩
    exact Text.intercalate_append hbefore hafter

theorem intercalate_isSuffix (before : List Name) {after : List Name} (hafter : after ≠ []) :
    ['/'].intercalate after <:+ ['/'].intercalate (before ++ after) := by
  by_cases hbefore : before = []
  · rw [hbefore]
    exact List.suffix_refl _
  · rw [Text.intercalate_append hbefore hafter]
    exact (List.suffix_cons _ _).trans (List.suffix_append _ _)

end Path

/-- The names stand in the text of a path as they are: none is empty, is a point or has a slash in it.
None has a line feed in it either, over which no directories are matched. -/
def Path.Written (ns : List Name) : Prop := ∀ n ∈ ns, n ≠ [] ∧ n ≠ ['.'] ∧ '/' ∉ n ∧ '\n' ∉ n

instance (ns : List Name) : Decidable (Path.Written ns) := inferInstanceAs (Decidable (∀ n ∈ ns, _))

namespace PathTest

/-- A match of the test may start in any directory on the path, not only where the path starts. -/
def floats : PathTest → Bool
  | anything | nested => true
  | shape atoms => atoms.head? = some .leadingDirs

def MatchesFrom (p : Text) : PathTest → Prop
  | anything => p.any (· ≠ '\n') = true
  | nested => '/' ∈ p
  | shape atoms => Atom.Matches (if atoms.head? = some .leadingDirs then atoms.tail else atoms) p

instance (p : Text) : (test : PathTest) → Decidable (test.MatchesFrom p)
  | anything => inferInstanceAs (Decidable (_ = true))
  | nested => inferInstanceAs (Decidable ('/' ∈ p))
  | shape _ => decidable_of_iff _ (Atom.matchStart_iff _ p)

variable {test : PathTest} {ns : List Name}

theorem holds_of_not_floats (h : test.floats = false) (p : Text) :
    test.holds p = true ↔ test.MatchesFrom p := by
  cases test with
  | anything => cases h
  | nested => cases h
  | shape atoms =>
    rw [MatchesFrom, if_neg (of_decide_eq_false h)]
    exact Atom.matchStart_iff atoms p

theorem holds_of_floats (h : test.floats = true) (hne : ns ≠ []) (hns : Path.Written ns) :
    test.holds (['/'].intercalate ns) = true ↔
      ∃ before after, ns = before ++ after ∧ after ≠ [] ∧ test.MatchesFrom (['/'].intercalate after) := by
  cases test with
  | anything =>
    constructor
    · exact fun hany => ⟨[], ns, rfl, hne, hany⟩
    · rintro ⟨before, after, rfl, hafter, hany⟩
      obtain ⟨c, hc, hnot⟩ := List.any_eq_true.1 hany
      exact List.any_eq_true.2 ⟨c, (Path.intercalate_isSuffix before hafter).mem hc, hnot⟩
  | nested =>
    constructor
    · exact fun hmem => ⟨[], ns, rfl, hne, (of_decide_eq_true hmem : '/' ∈ _)⟩
    · rintro ⟨before, after, rfl, hafter, hmem⟩
      exact decide_eq_true ((Path.intercalate_isSuffix before hafter).mem hmem)
  | shape atoms =>
    obtain ⟨as, rfl⟩ := List.head?_eq_some_iff.1 (of_decide_eq_true h)
    refine (Atom.matchStart_iff _ _).trans ⟨fun hmatches => ?_, ?_⟩
    · generalize hp : ['/'].intercalate ns = p at hmatches
      cases hmatches with
      | @cons _ _ mid rest hmid hrest =>
        obtain rfl | ⟨dirs, -, -, rfl⟩ := hmid
        · exact ⟨[], ns, rfl, hne, hp ▸ hrest⟩
        · rw [List.append_assoc] at hp
          obtain ⟨before, after, hsplit, -, hafter, -, rfl⟩ :=
            (Path.intercalate_eq_append hne fun n hn => (hns n hn).2.2.1).1 hp
          exact ⟨before, after, hsplit, hafter, hrest⟩
    · rintro ⟨before, after, rfl, hafter, hrest⟩
      by_cases hbefore : before = []
      · subst hbefore
        show Atom.Matches _ ([] ++ ['/'].intercalate after)
        exact .cons (.inl rfl) hrest
      · have hwritten (n : Name) (hn : n ∈ before) := hns n (List.mem_append_left _ hn)
        rw [Text.intercalate_append hbefore hafter, List.append_cons]
        refine .cons (.inr ⟨_, Path.intercalate_ne_nil hbefore fun n hn => (hwritten n hn).1, ?_, rfl⟩) hrest
        rw [Text.mem_intercalate (by decide)]
        exact fun ⟨n, hn, hmem⟩ => (hwritten n hn).2.2.2 hmem

end PathTest

namespace Rule

/-- Some match of the rule starts in one of the directories `between`, and not below all of them. -/
def StartsIn (between below : List Name) (r : Rule) : Prop :=
  ∃ after ∈ between.tails, after ≠ [] ∧ r.test.MatchesFrom (['/'].intercalate (after ++ below))

instance (between below : List Name) (r : Rule) : Decidable (r.StartsIn between below) :=
  inferInstanceAs (Decidable (∃ after ∈ between.tails, _))

/-- The line is a comment, or states a pattern without a slash before its end. -/
def Unanchored (l : Line) : Prop := (stripLine l).head? = some '#' ∨ '/' ∉ (stripLine l).dropLast

variable {r : Rule} {between below : List Name}

/-- From a directory further up, a rule that floats takes in what it takes in from below, and what
matches on the way there. -/
theorem holds_append (h : r.test.floats = true) (hbelow : below ≠ [])
    (hnames : Path.Written (between ++ below)) :
    r.test.holds (['/'].intercalate (between ++ below)) = true ↔
      r.test.holds (['/'].intercalate below) = true ∨ r.StartsIn between below := by
  have hbelow' : Path.Written below := fun n hn => hnames n (List.mem_append_right _ hn)
  rw [PathTest.holds_of_floats h (by simp [hbelow]) hnames, PathTest.holds_of_floats h hbelow hbelow']
  constructor
  · rintro ⟨before, after, hsplit, hafter, hmatch⟩
    obtain ⟨more, rfl, rfl⟩ | ⟨more, rfl, rfl⟩ := List.append_eq_append_iff.1 hsplit
    · exact .inl ⟨more, after, rfl, hafter, hmatch⟩
    · by_cases hmore : more = []
      · subst hmore
        exact .inl ⟨[], _, rfl, hbelow, hmatch⟩
      · exact .inr ⟨more, (List.mem_tails _ _).2 (List.suffix_append before more), hmore, hmatch⟩
  · rintro (⟨before, after, rfl, hafter, hmatch⟩ | ⟨after, htail, -, hmatch⟩)
    · exact ⟨between ++ before, after, (List.append_assoc _ _ _).symm, hafter, hmatch⟩
    · obtain ⟨before, rfl⟩ := (List.mem_tails _ _).1 htail
      exact ⟨before, after ++ below, List.append_assoc _ _ _, by simp [hbelow], hmatch⟩

theorem test?_floats {pattern : Text} {rest : List Text} {test : PathTest}
    (hsegments : segments pattern = anyDirs :: rest) (h : test? pattern = .ok (some test)) :
    test.floats = true := by
  simp only [test?, hsegments] at h
  split at h
  · cases h
  split at h
  · cases h
    split <;> rfl
  split at h
  · cases h
    rfl
  split at h
  · cases h
    rfl
  split at h
  · cases h
  · cases h
  · next as has =>
    rw [nameAtoms, if_pos rfl, if_pos rfl] at has
    obtain ⟨as, -, rfl⟩ := Except.map_eq_ok.1 has
    split at h
    · cases h
    · cases h
      rfl

theorem segments_of_not_mem {pattern : Text} (h : '/' ∉ pattern.dropLast) (hne : pattern ≠ []) :
    ∃ rest, segments pattern = anyDirs :: rest := by
  have hsplit : ∃ s : Text, pattern.splitOn '/' = [s] ∧ s ≠ [] ∨ pattern.splitOn '/' = [s, []] := by
    have hconcat := List.dropLast_concat_getLast hne
    by_cases hlast : pattern.getLast hne = '/'
    · refine ⟨pattern.dropLast, .inr ?_⟩
      rw [hlast] at hconcat
      conv_lhs => rw [← hconcat]
      exact (Path.pieces_append _ _).trans (by rw [Path.pieces_of_not_mem h]; rfl)
    · refine ⟨pattern, .inl ⟨List.splitOn_eq_singleton fun hmem => ?_, hne⟩⟩
      rw [← hconcat, List.mem_append, List.mem_singleton] at hmem
      exact hmem.elim h fun he => hlast he.symm
  obtain ⟨s, ⟨hs, hempty⟩ | hs⟩ := hsplit
  · by_cases hany : s = anyDirs
    · subst hany
      exact ⟨[], by simp [segments, hs, anyDirs, collapse]⟩
    · exact ⟨[s], by simp [segments, hs, hempty, hany, collapse]⟩
  · by_cases hempty : s = []
    · subst hempty
      exact ⟨[], by simp [segments, hs, collapse]⟩
    by_cases hany : s = anyDirs
    · subst hany
      exact ⟨[], by simp [segments, hs, anyDirs, collapse]⟩
    · exact ⟨[s, anyDirs], by simp [segments, hs, hany, collapse]⟩

theorem ofLine?_floats {l : Line} (hl : Unanchored l) (h : ofLine? l = .ok (some r)) :
    r.test.floats = true := by
  simp only [ofLine?] at h
  split at h
  · cases h
  · next hnone =>
    rw [not_or, not_or] at hnone
    obtain ⟨found, htest, hfound⟩ := Except.map_eq_ok.1 h
    obtain ⟨test, rfl, rfl⟩ := Option.map_eq_some_iff.1 hfound
    have hslash := hl.resolve_left hnone.2.1
    generalize hp : (if (stripLine l).head? = some '!' then (stripLine l).drop 1 else stripLine l) = pattern
      at htest
    have hsub : '/' ∉ pattern.dropLast := by
      rw [← hp]
      split
      · rw [List.drop_one, ← List.tail_dropLast]
        exact fun hmem => hslash (List.mem_of_mem_tail hmem)
      · exact hslash
    have hne : pattern ≠ [] := by
      rintro rfl
      cases (by decide : test? [] = .error .malformed).symm.trans htest
    obtain ⟨rest, hsegments⟩ := segments_of_not_mem hsub hne
    exact test?_floats hsegments htest

end Rule

namespace Rules

variable {t : FileTree} {dir above between : Path} {b : ByteArray} {rules : Rules}

/-- The ignore file that is nearest to a directory is nearest to its own. -/
theorem nearest_of_nearest (h : nearest t (above ++ between) = some (above, b)) :
    nearest t above = some (above, b) :=
  nearest_of_supplies (nearest_eq_some.1 h).supplies

theorem forPath_of_nearest (hnear : nearest t (above ++ between) = some (above, b))
    (habove : t.hasFile above = false) (hdir : t.hasFile (above ++ between) = false) :
    forPath t above = forPath t (above ++ between) := by
  have hstart {d : Path} (hd : t.hasFile d = false) : startOf t d = d := by simp [startOf, hd]
  rw [forPath, forPath, hstart habove, hstart hdir, hnear, nearest_of_nearest hnear]

theorem relative_of_written {ns : List Name} (hne : ns ≠ []) (hns : Path.Written ns) :
    relative (['/'].intercalate ns) = ['/'].intercalate ns := by
  have hstart := Path.head?_intercalate fun n hn => ⟨(hns n hn).1, (hns n hn).2.2.1⟩
  refine (relative_cases hstart).resolve_right fun hdot => ?_
  obtain ⟨before, after, rfl, hbefore, -, hs, -⟩ :=
    (Path.intercalate_eq_append (s := ['.']) hne fun n hn => (hns n hn).2.2.1).1 hdot
  have hwritten (n : Name) (hn : n ∈ before) := hns n (List.mem_append_left _ hn)
  have hfirst := List.splitOn_intercalate '/' (fun n hn => (hwritten n hn).2.2.1) hbefore
  rw [← hs] at hfirst
  exact (hwritten ['.'] (hfirst ▸ List.mem_singleton_self _)).2.1 rfl

theorem floats_of_forPath (hrules : forPath t dir = .ok rules)
    (hlines : ∀ l ∈ ownLines t dir, Rule.Unanchored l) : ∀ r ∈ rules, r.test.floats = true := by
  obtain ⟨own, rfl, hown⟩ := forPath_eq_ok hrules
  refine List.forall_mem_cons.2 ⟨rfl, fun r hr => ?_⟩
  obtain ⟨l, hl, hrule⟩ := hown r hr
  exact Rule.ofLine?_floats (hlines l hl) hrule

theorem excludes_congr {p q : Text}
    (h : ∀ r ∈ rules, (r.test.holds (relative p) = true ↔ r.test.holds (relative q) = true)) :
    rules.excludes p = rules.excludes q := by
  unfold excludes
  rw [List.find?_congr fun r hr => Bool.eq_iff_iff.2 (h r (List.mem_reverse.1 hr))]

theorem guarded_eq_ignored {base : RealPath} {path : Text} {p : Path} (h : base.resolve? path = some p) :
    Draft.guarded base (some rules) path = .error (.ignored path) ↔
      rules.excludes (Path.relative base.path p) = true := by
  simp [Draft.guarded, h]

/-- The rules that hold in a directory are those of the directory above with the nearest ignore file. From
there, a rule that floats takes in what it takes in from below and what matches on the way; any other has
its match start where the path does, and so in another directory. If all of them float, as those of lines
without a slash before their end do, and none matches on the way, a path is excluded from below just as from
above, and a patch is refused there for the same paths. -/
theorem excludes_from_above (hrules : forPath t (above ++ between) = .ok rules)
    (hnear : nearest t (above ++ between) = some (above, b)) (habove : t.hasFile above = false)
    (hdir : t.hasFile (above ++ between) = false) :
    forPath t above = .ok rules ∧
      ((∀ l ∈ ownLines t (above ++ between), Rule.Unanchored l) → ∀ r ∈ rules, r.test.floats = true) ∧
      ∀ below, below ≠ [] → Path.Written (between ++ below) →
        let p := above ++ (between ++ below)
        let near := Path.relative (above ++ between) p
        let far := Path.relative above p
        (∀ r ∈ rules, r.test.floats = true →
          (r.test.holds (relative far) = true ↔
            r.test.holds (relative near) = true ∨ r.StartsIn between below)) ∧
        (∀ r ∈ rules, r.test.floats = false →
          (r.test.holds (relative far) = true ↔ r.test.MatchesFrom far) ∧
          (r.test.holds (relative near) = true ↔ r.test.MatchesFrom near)) ∧
        ((∀ r ∈ rules, r.test.floats = true ∧ ¬r.StartsIn between below) →
          rules.excludes near = rules.excludes far ∧
            ∀ base base' path path', base.path = above ++ between → base'.path = above →
              base.resolve? path = some p → base'.resolve? path' = some p →
              (Draft.guarded base (some rules) path = .error (.ignored path) ↔
                Draft.guarded base' (some rules) path' = .error (.ignored path'))) := by
  refine ⟨(forPath_of_nearest hnear habove hdir).trans hrules, floats_of_forPath hrules, ?_⟩
  intro below hbelow hnames p near far
  have hfar : far = ['/'].intercalate (between ++ below) := Path.relative_append above (by simp [hbelow])
  have hnear : near = ['/'].intercalate below := by
    unfold near p
    rw [← List.append_assoc]
    exact Path.relative_append _ hbelow
  have hfar' : relative far = far := by
    rw [hfar]
    exact relative_of_written (by simp [hbelow]) hnames
  have hnear' : relative near = near := by
    rw [hnear]
    exact relative_of_written hbelow fun n hn => hnames n (List.mem_append_right _ hn)
  have hfloats : ∀ r ∈ rules, r.test.floats = true →
      (r.test.holds (relative far) = true ↔
        r.test.holds (relative near) = true ∨ r.StartsIn between below) := by
    intro r _ hfl
    rw [hfar', hnear', hfar, hnear]
    exact Rule.holds_append hfl hbelow hnames
  refine ⟨hfloats, fun r _ hfl => ?_, fun hway => ?_⟩
  · rw [hfar', hnear']
    exact ⟨PathTest.holds_of_not_floats hfl far, PathTest.holds_of_not_floats hfl near⟩
  · have hsame : rules.excludes near = rules.excludes far := by
      refine excludes_congr fun r hr => ?_
      obtain ⟨hfl, hnone⟩ := hway r hr
      rw [hfloats r hr hfl, or_iff_left hnone]
    refine ⟨hsame, ?_⟩
    intro base base' path path' hbase hbase' hpath hpath'
    rw [guarded_eq_ignored hpath, guarded_eq_ignored hpath', hbase, hbase']
    exact Bool.eq_iff_iff.1 hsame

theorem excludes_from_above_suffix :
    let t := (FileTree.empty.put [".gitignore".toList] (.file "*.log\n**/tmp/x\n".toUTF8)).put [['b']] .dir
    ∃ rules, forPath t [['b']] = .ok rules ∧ forPath t [] = .ok rules ∧
      rules.excludes "b/d/x.log".toList = true ∧ rules.excludes "d/x.log".toList = true := by
  intro t
  let log : Rule := ⟨false, .shape ([.leadingDirs, .runInName] ++ ".log".toList.map .literal ++ [.nameEnd])⟩
  let tmp : Rule := ⟨false, .shape (.leadingDirs :: "tmp/x".toList.map .literal ++ [.nameEnd])⟩
  have hrules : forPath t ([] ++ [['b']]) = .ok [Rule.git, log, tmp] := by decide +kernel
  have hnear : nearest t ([] ++ [['b']]) = some ([], "*.log\n**/tmp/x\n".toUTF8) := by decide +kernel
  obtain ⟨habove, -, hall⟩ := excludes_from_above hrules hnear (by decide +kernel) (by decide +kernel)
  obtain ⟨-, -, hsame⟩ := hall [['d'], "x.log".toList] (by decide) (by decide +kernel)
  obtain ⟨hsame, -⟩ := hsame (by decide +kernel)
  have hfar : Rules.excludes [Rule.git, log, tmp] "b/d/x.log".toList = true := by decide +kernel
  exact ⟨_, hrules, habove, hfar, hsame.trans hfar⟩

/-- A pattern that starts with a slash takes in what stands in the base in place of what stands beside the
ignore file. -/
theorem not_excludes_from_above_anchored :
    ¬∀ (t : FileTree) (above between below : Path) (b : ByteArray) (rules : Rules),
      forPath t (above ++ between) = .ok rules → nearest t (above ++ between) = some (above, b) →
      between ≠ [] → below ≠ [] → Path.Written (between ++ below) →
      rules.excludes (Path.relative (above ++ between) (above ++ (between ++ below))) =
        rules.excludes (Path.relative above (above ++ (between ++ below))) := by
  intro hall
  let t := (FileTree.empty.put [".gitignore".toList] (.file "/build\n".toUTF8)).put [['b']] .dir
  let build : Rule := ⟨false, .shape ("build".toList.map .literal ++ [.nameEnd])⟩
  have hrules : forPath t [['b']] = .ok [Rule.git, build] := by decide +kernel
  have hsame := hall t [] [['b']] ["build".toList, ['x']] "/build\n".toUTF8 _ hrules (by decide +kernel)
    (by decide) (by decide) (by decide)
  revert hsame
  decide +kernel

end Rules

end Emend
