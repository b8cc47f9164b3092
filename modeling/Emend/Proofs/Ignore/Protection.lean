import Emend.Ignore.Nearest
import Emend.Proofs.Except
import Emend.Proofs.Ignore.Glob
import Emend.Proofs.Text.Blank
import Emend.Proofs.Text.Joined

namespace Emend

theorem Path.intercalate_pieces (t : Text) : ['/'].intercalate (pieces t) = t :=
  List.intercalate_splitOn '/'

def Rules.gitDir : Name := ".git".toList

namespace Rule

def git : Rule := ⟨false, .shape (.leadingDirs :: ".git/".toList.map .literal)⟩

theorem ofLine?_git : ofLine? ".git/".toList = .ok (some git) := by decide +kernel

theorem stripLine_isPrefix (l : Line) : stripLine l <+: l := by
  unfold stripLine
  split
  · exact List.prefix_refl l
  · exact Text.trimRight_isPrefix l

theorem head?_of_negated {l : Line} {r : Rule} (h : ofLine? l = .ok (some r)) (hr : r.negated = true) :
    l.head? = some '!' := by
  simp only [ofLine?] at h
  split at h
  · cases h
  · obtain ⟨test?, -, htest⟩ := Except.map_eq_ok.1 h
    obtain ⟨test, -, rfl⟩ := Option.map_eq_some_iff.1 htest
    have hfirst : (stripLine l).head? = some '!' := of_decide_eq_true hr
    obtain ⟨rest, hrest⟩ := List.head?_eq_some_iff.1 hfirst
    obtain ⟨behind, hl⟩ := stripLine_isPrefix l
    rw [← hl, hrest]
    rfl

/-- The rule takes in what is below a git directory, at the start of the path or behind names
that end no line. -/
theorem git_holds {p : Text} : git.test.holds p = true ↔
    ∃ dirs rest, p = dirs ++ (".git/".toList ++ rest) ∧
      (dirs = [] ∨ ∃ above, above ≠ [] ∧ '\n' ∉ above ∧ dirs = above ++ ['/']) := by
  show Atom.matchStart _ p = true ↔ _
  rw [Atom.matchStart_iff]
  constructor
  · intro hmatches
    cases hmatches with
    | @cons _ _ dirs rest hdirs hrest =>
      obtain ⟨rest, rfl⟩ := Atom.matches_literals.1 hrest
      exact ⟨dirs, rest, rfl, hdirs⟩
  · rintro ⟨dirs, rest, rfl, hdirs⟩
    exact .cons hdirs (Atom.matches_literals.2 (List.prefix_append _ rest))

theorem git_holds_of_pieces {p : Text} {before after : List Name}
    (hp : Path.pieces p = before ++ Rules.gitDir :: after) (hafter : after ≠ [])
    (hline : ∀ n ∈ before, '\n' ∉ n) (hempty : before ≠ [[]]) : git.test.holds p = true := by
  have hbelow : ['/'].intercalate (Rules.gitDir :: after) = ".git/".toList ++ ['/'].intercalate after := by
    exact Text.intercalate_append (List.cons_ne_nil Rules.gitDir []) hafter
  rw [git_holds, ← Path.intercalate_pieces p, hp]
  by_cases hbefore : before = []
  · exact ⟨[], _, by rw [hbefore]; exact hbelow, .inl rfl⟩
  · refine ⟨['/'].intercalate before ++ ['/'], ['/'].intercalate after, ?_, .inr ⟨_, ?_, ?_, rfl⟩⟩
    · rw [Text.intercalate_append hbefore (List.cons_ne_nil _ _), hbelow, List.append_assoc]
      rfl
    · intro hnil
      obtain ⟨n, before, rfl⟩ := List.exists_cons_of_ne_nil hbefore
      cases before with
      | nil => exact hempty (by rw [← hnil, List.intercalate_singleton])
      | cons m before => simp [List.intercalate_cons_cons] at hnil
    · rw [Text.mem_intercalate (by decide)]
      exact fun ⟨n, hn, hmem⟩ => hline n hn hmem

end Rule

namespace Rules

variable {t : FileTree} {dir : Path} {rules own : Rules} {p : Text}

theorem relative_cases (hp : p.head? ≠ some '/') : relative p = p ∨ p = '.' :: '/' :: relative p := by
  unfold relative
  split
  · exact absurd rfl hp
  · exact .inr rfl
  · exact .inl rfl

theorem git_holds_relative {before after : List Name}
    (hp : Path.pieces p = before ++ gitDir :: after) (hafter : after ≠ [])
    (hstart : p.head? ≠ some '/') (hline : ∀ n ∈ before, '\n' ∉ n) (hempty : before ≠ [['.'], []]) :
    Rule.git.test.holds (relative p) = true := by
  obtain hrel | hrel := relative_cases hstart
  · rw [hrel]
    refine Rule.git_holds_of_pieces hp hafter hline ?_
    rintro rfl
    rw [← Path.intercalate_pieces p, hp] at hstart
    exact hstart rfl
  · -- A point and a slash in front are the first of the names above the directory.
    have hcons (q : Text) : Path.pieces ('.' :: '/' :: q) = ['.'] :: Path.pieces q := by
      simp [Path.pieces, List.splitOn_cons_eq_if_modifyHead]
    rw [hrel, hcons] at hp
    cases before with
    | nil => cases (List.cons.inj hp).1
    | cons n before =>
      obtain ⟨rfl, hmore⟩ := List.cons_eq_cons.1 hp
      obtain ⟨-, hline⟩ := List.forall_mem_cons.1 hline
      exact Rule.git_holds_of_pieces hmore hafter hline fun h => hempty (h ▸ rfl)

/-- The last of the rules that matches the path takes it back in. -/
def TakesBack (rules : Rules) (p : Text) : Prop :=
  ∃ r ∈ rules.reverse.find? fun r => r.test.holds (relative p), r.negated = true

instance (rules : Rules) (p : Text) : Decidable (rules.TakesBack p) :=
  inferInstanceAs (Decidable (∃ r ∈ rules.reverse.find? _, _))

theorem excludes_cons_git (hp : Rule.git.test.holds (relative p) = true) :
    excludes (Rule.git :: own) p = true ↔ ¬own.TakesBack p := by
  have hgit : [Rule.git].find? (fun r => r.test.holds (relative p)) = some Rule.git :=
    List.find?_cons_of_pos hp
  unfold excludes TakesBack
  rw [List.reverse_cons, List.find?_append, hgit]
  cases own.reverse.find? fun r => r.test.holds (relative p) with
  | none => simp [Rule.git]
  | some r => simp

def ownLines (t : FileTree) (dir : Path) : List Line :=
  match nearest t (startOf t dir) with
  | some (_, b) => (Text.decodeLenient b).brokenLines
  | none => []

theorem mem_ofLines {ls : List Line} {r : Rule} (h : ofLines ls = .ok rules) (hr : r ∈ rules) :
    ∃ l ∈ ls, Rule.ofLine? l = .ok (some r) := by
  induction ls generalizing rules with
  | nil =>
    cases h
    cases hr
  | cons l ls ih =>
    rw [ofLines] at h
    split at h
    · cases h
    · next rule? hrule =>
      obtain ⟨rules, hrules, rfl⟩ := Except.map_eq_ok.1 h
      obtain hr | hr := List.mem_append.1 hr
      · exact ⟨l, List.mem_cons_self, hrule.trans (congrArg _ (Option.mem_toList.1 hr))⟩
      · obtain ⟨l', hl', hr⟩ := ih hrules hr
        exact ⟨l', List.mem_cons_of_mem _ hl', hr⟩

/-- What the lines come to behind those in front of them, which stand alone if one is malformed. -/
structure Compiled (ls : List Line) (result : Except Rule.Fault Rules) : Prop where
  whole : ofLines (defaultLines ++ ls) ≠ .error .malformed → result = ofLines (defaultLines ++ ls)
  alone : ofLines (defaultLines ++ ls) = .error .malformed → result = .ok [Rule.git]

theorem ofLines_default_append (ls : List Line) :
    ofLines (defaultLines ++ ls) = (ofLines ls).map (Rule.git :: ·) := by
  rw [defaultLines, List.singleton_append, ofLines, Rule.ofLine?_git]
  rfl

theorem ofLines_default : ofLines defaultLines = .ok [Rule.git] := by
  rw [← List.append_nil defaultLines, ofLines_default_append]
  rfl

theorem forPath_compiled (t : FileTree) (dir : Path) : Compiled (ownLines t dir) (forPath t dir) := by
  unfold forPath ownLines
  cases nearest t (startOf t dir)
  all_goals
    dsimp only
    split
    · next h => exact ⟨absurd h, fun _ => ofLines_default⟩
    · next h => exact ⟨fun _ => rfl, fun he => absurd he h⟩

theorem forPath_eq_ok (h : forPath t dir = .ok rules) : ∃ own, rules = Rule.git :: own ∧
    ∀ r ∈ own, ∃ l ∈ ownLines t dir, Rule.ofLine? l = .ok (some r) := by
  by_cases hmalformed : ofLines (defaultLines ++ ownLines t dir) = .error .malformed
  · rw [(forPath_compiled t dir).alone hmalformed] at h
    cases h
    exact ⟨[], rfl, List.forall_mem_nil _⟩
  · rw [(forPath_compiled t dir).whole hmalformed, ofLines_default_append] at h
    obtain ⟨own, hown, rfl⟩ := Except.map_eq_ok.1 h
    exact ⟨own, rfl, fun r hr => mem_ofLines hown hr⟩

end Rules

end Emend
