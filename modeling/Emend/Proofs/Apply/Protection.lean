import Emend.Proofs.Apply.Success
import Emend.Proofs.Envelope.Grammar
import Emend.Proofs.Ignore.Protection

namespace Emend

open EStateM

namespace Draft

/-- The second computation comes to what the first does, unless an excluded path stops it. -/
def Restrained {α : Type} (x y : Drafting α) : Prop :=
  ∀ d, x.Ends d (fun a d' => y d = .ok a d' ∨ ∃ path d'', y d = .error (.ignored path) d'') fun _ _ => True

namespace Restrained

variable {α β : Type} {x y : Drafting α} {f g : α → Drafting β} {t : FileTree} {base : RealPath}
  {rules : Option Rules}

theorem refl (x : Drafting α) : Restrained x x := fun d =>
  (ends_self x d).mono (fun _ _ h => .inl h) fun _ _ _ => trivial

theorem bind (h : Restrained x y) (hf : ∀ a, Restrained (f a) (g a)) : Restrained (x >>= f) (y >>= g) := by
  intro d
  rw [ends_bind]
  refine (h d).mono (fun a d' hy => ?_) fun _ _ _ => trivial
  show EStateM.Ends (f a) d' (fun b d'' => EStateM.bind y g d = _ ∨ ∃ path d'', EStateM.bind y g d = _) _
  rw [EStateM.bind]
  obtain hy | ⟨path, d'', hy⟩ := hy
  · rw [hy]
    exact hf a d'
  · rw [hy]
    exact (ends_self (f a) d').mono (fun _ _ _ => .inr ⟨path, d'', rfl⟩) fun _ _ _ => trivial

theorem claim (path : Text) : Restrained (claim base none path) (claim base rules path) := by
  refine .bind (fun d => ?_) fun p => .refl _
  cases hfree : guarded base none path with
  | error e => trivial
  | ok p =>
    have hruled : guarded base rules path = .ok p ∨ guarded base rules path = .error (.ignored path) := by
      unfold guarded at hfree ⊢
      split
      · next hnone =>
        rw [hnone] at hfree
        cases hfree
      · next q hq =>
        rw [hq] at hfree
        cases hfree
        split
        · exact .inr rfl
        · exact .inl rfl
    obtain hok | herror := hruled
    · rw [hok]
      exact .inl rfl
    · rw [herror]
      exact .inr ⟨path, d, rfl⟩

theorem update (p : Path) (path body : Text) (moveTo : Option Text) :
    Restrained (update t base none p path body moveTo) (update t base rules p path body moveTo) := by
  refine .bind (.refl _) fun b => ?_
  cases Text.decode? b with
  | none => exact .refl _
  | some former =>
    refine .bind (.refl _) fun ⟨text, fuzz⟩ => .bind (.refl _) fun _ => ?_
    cases moveTo with
    | none => exact .refl _
    | some newPath => exact .bind (claim newPath) fun dest => .refl _

theorem operation (op : Operation) : Restrained (operation t base none op) (operation t base rules op) := by
  refine .bind (claim op.path) fun p => ?_
  cases op with
  | add path body => exact .refl _
  | delete path => exact .refl _
  | update path body moveTo => exact update p path _ moveTo

theorem operations (ops : List Operation) :
    Restrained (operations t base none ops) (operations t base rules ops) := by
  induction ops with
  | nil => exact .refl _
  | cons op ops ih => exact .bind (operation op) fun _ => ih

theorem ofPatch {r : Rules} (hr : Rules.forPath t base.path = .ok r) (patch : Text) :
    Restrained (ofPatch t base false patch) (ofPatch t base true patch) := by
  unfold Draft.ofPatch
  simp only [Bool.false_eq_true, if_false, if_true, hr, pure_bind]
  cases Envelope.read patch with
  | error e => exact .refl (throw (.patch e))
  | ok ops => exact .bind (.refl _) fun _ => operations ops

end Restrained

end Draft

theorem Operation.Works.guarded {t : FileTree} {base : RealPath} {rules : Option Rules} {op : Operation}
    {e : Effect} (h : op.Works t base rules e) :
    ∀ path ∈ op.paths, ∃ p, Draft.guarded base rules path = .ok p := by
  cases h with
  | add hp => exact List.forall_mem_singleton.2 ⟨_, hp⟩
  | delete hp => exact List.forall_mem_singleton.2 ⟨_, hp⟩
  | update hp => exact List.forall_mem_singleton.2 ⟨_, hp⟩
  | move hp _ _ hdest => exact List.forall_mem_cons.2 ⟨⟨_, hp⟩, List.forall_mem_singleton.2 ⟨_, hdest⟩⟩

theorem Path.forall_mem_drop_walk {P : Name → Prop} {ns : List Name} {k : Nat} {p : Path}
    (hp : ∀ n ∈ p.drop k, P n) (hns : ∀ n ∈ ns, n ≠ [] → n ≠ ['.'] → P n) :
    ∀ n ∈ (p.walk ns).drop k, P n := by
  induction ns generalizing p with
  | nil => exact hp
  | cons m ns ih =>
    obtain ⟨hm, hns⟩ := List.forall_mem_cons.1 hns
    refine ih ?_ hns
    unfold Path.step
    split
    · exact hp
    · next hplain =>
      rw [not_or] at hplain
      split
      · exact fun n hn => hp n (((List.dropLast_sublist p).drop k).mem hn)
      · rw [List.drop_append]
        refine List.forall_mem_append.2 ⟨hp, fun n hn => ?_⟩
        obtain rfl := List.mem_singleton.1 ((List.drop_sublist _ _).mem hn)
        exact hm hplain.1 hplain.2

namespace Envelope

variable {item : Item} {op : Operation} {ops : List Operation} {c : Char}

theorem Item.not_mem_paths (hop : item.operation? = some op) (hc : ∀ l ∈ item.lines, c ∉ l) :
    ∀ path ∈ op.paths, c ∉ path := by
  have hpath {lead raw : Text} (hmem : lead ++ raw ∈ item.lines) : c ∉ raw.trim := fun h =>
    hc _ hmem (List.mem_append_right lead (Text.mem_of_mem_trim h))
  cases item with
  | blank l => cases hop
  | delete raw =>
    cases hop
    exact List.forall_mem_singleton.2 (hpath List.mem_cons_self)
  | add raw body =>
    cases hop
    exact List.forall_mem_singleton.2 (hpath List.mem_cons_self)
  | update raw body =>
    cases hop
    exact List.forall_mem_singleton.2 (hpath List.mem_cons_self)
  | move raw dest body =>
    cases hop
    refine List.forall_mem_cons.2 ⟨hpath List.mem_cons_self, fun path hmem => ?_⟩
    have hdest : path ∈ if dest.trim = [] then none else some dest.trim := Option.mem_toList.1 hmem
    obtain ⟨-, hsome⟩ := Option.ite_none_left_eq_some.1 hdest
    cases hsome
    exact hpath (List.mem_cons_of_mem _ List.mem_cons_self)

theorem read_paths {t : Text} (h : read t = .ok ops) : ∀ path ∈ ops.flatMap Operation.paths, '\n' ∉ path := by
  obtain ⟨items, hpatch, rfl⟩ := isPatch_of_read h
  obtain ⟨first, rest, last, hlines, -, hspells, -⟩ := hpatch.lines
  intro path hmem
  obtain ⟨op, hop, hmem⟩ := List.mem_flatMap.1 hmem
  obtain ⟨item, hitem, hop⟩ := List.mem_filterMap.1 hop
  refine Item.not_mem_paths hop (fun l hl => ?_) path hmem
  have hline : l ∈ patchLines t.trim := by
    rw [hlines, hspells.lines_eq]
    exact List.mem_cons_of_mem _ (List.mem_append_left _ (List.mem_flatMap.2 ⟨item, hitem, hl⟩))
  exact (writable_of_mem_patchLines hline).1

end Envelope

theorem RealPath.pieces_relative {base : RealPath} {path : Text} {below : Path} (hne : below ≠ [])
    (hline : '\n' ∉ path) (h : base.resolve? path = some (base.path ++ below)) :
    Path.pieces (Path.relative base.path (base.path ++ below)) = below ∧
      ∀ n ∈ below, n ≠ [] ∧ n ≠ ['.'] ∧ '/' ∉ n ∧ '\n' ∉ n := by
  have hwalk : base.path.walk (Path.pieces path) = base.path ++ below := by
    unfold resolve? at h
    split at h
    · cases h
    · exact (Path.resolve?_eq_some.1 h).2
  have hnames : ∀ n ∈ below, n ≠ [] ∧ n ≠ ['.'] ∧ '/' ∉ n ∧ '\n' ∉ n := by
    have hdrop : (base.path.walk (Path.pieces path)).drop base.path.length = below := by
      rw [hwalk, List.drop_left]
    rw [← hdrop]
    refine Path.forall_mem_drop_walk ?_ fun n hn hempty hdot => ?_
    · rw [List.drop_length]
      exact nofun
    · refine ⟨hempty, hdot, Text.not_mem_of_mem_splitOn hn, fun hmem => hline ?_⟩
      rw [← Path.intercalate_pieces path, Text.mem_intercalate (by decide)]
      exact ⟨n, hn, hmem⟩
  refine ⟨?_, hnames⟩
  rw [Path.relative_append base.path hne]
  exact List.splitOn_intercalate _ (fun n hn => (hnames n hn).2.2.1) hne

namespace Applied

variable {t : FileTree} {base : RealPath} {dir : Path} {rules own : Rules} {patch : Text}
  {ops : List Operation}

/-- Held to the rules, a patch that names an excluded path is refused, and nothing is written. If there
is nothing else to refuse it for, it is for an excluded path. -/
theorem ofPatch_refuses_excluded {names : List Name} {path : Text} {p : Path}
    (hbase : t.realPath names = .ok base) (hrules : Rules.forPath t base.path = .ok rules)
    (hread : Envelope.read patch = .ok ops) (hpath : path ∈ ops.flatMap Operation.paths)
    (hp : base.resolve? path = some p) (hout : rules.excludes (Path.relative base.path p) = true)
    (options : Options) :
    let applied := ofPatch t names patch options true
    (∃ e, applied.outcome = .error e) ∧ applied.tree = t ∧
      ((∃ d, Draft.ofPatch t base false patch {} = .ok () d) →
        ∃ path', applied.outcome = .error (.ignored path')) := by
  intro applied
  have happlied : applied = ofPatchAt t base patch options true := ofPatch_eq_ofPatchAt hbase
  rw [happlied]
  unfold ofPatchAt
  cases hdraft : Draft.ofPatch t base true patch {} with
  | error e d =>
    refine ⟨⟨e, rfl⟩, rfl, fun ⟨d', hfree⟩ => ?_⟩
    obtain hok | ⟨path', d'', herror⟩ := (Draft.Restrained.ofPatch hrules patch {}).of_ok hfree
    · rw [hdraft] at hok
      cases hok
    · rw [hdraft] at herror
      cases herror
      exact ⟨path', rfl⟩
  | ok u d =>
    obtain ⟨rules', ops', es, ⟨r, hr, rfl⟩, hread', hall, -⟩ :=
      (Draft.ofPatch_works t base true patch).of_ok hdraft
    rw [hread] at hread'
    obtain rfl := Except.ok.inj hread'
    rw [hrules] at hr
    obtain rfl := Except.ok.inj hr
    obtain ⟨op, hop, hmem⟩ := List.mem_flatMap.1 hpath
    obtain ⟨e, -, hw⟩ := Draft.works_of_operation hall hop
    obtain ⟨q, hq⟩ := hw.guarded path hmem
    simp [Draft.guarded, hp, hout] at hq

/-- Whatever the nearest ignore file says, a path with a git directory above its last name is excluded,
unless the last rule of the file that matches it takes it back in, and a patch that names it is refused
before anything is written. Names above the git directory end no line, and a point and a slash at the
start are not followed by another slash. -/
theorem ofPatch_protects_git (hrules : Rules.forPath t dir = .ok rules) :
    ∃ own, rules = Rule.git :: own ∧
      (∀ r ∈ own, r.negated = true →
        ∃ l ∈ Rules.ownLines t dir, Rule.ofLine? l = .ok (some r) ∧ l.head? = some '!') ∧
      (∀ p before after, Path.pieces p = before ++ Rules.gitDir :: after → after ≠ [] →
        p.head? ≠ some '/' → (∀ n ∈ before, '\n' ∉ n) → before ≠ [['.'], []] →
        (rules.excludes p = true ↔ ¬Rules.TakesBack own p)) ∧
      ∀ names base patch ops path before after options,
        t.realPath names = .ok base → base.path = dir → Envelope.read patch = .ok ops →
        path ∈ ops.flatMap Operation.paths →
        let place := dir ++ (before ++ Rules.gitDir :: after)
        base.resolve? path = some place → after ≠ [] → ¬Rules.TakesBack own (Path.relative dir place) →
        let applied := ofPatch t names patch options true
        (∃ e, applied.outcome = .error e) ∧ applied.tree = t ∧
          ((∃ d, Draft.ofPatch t base false patch {} = .ok () d) →
            ∃ path', applied.outcome = .error (.ignored path')) := by
  obtain ⟨own, rfl, hown⟩ := Rules.forPath_eq_ok hrules
  have hexcludes : ∀ p before after, Path.pieces p = before ++ Rules.gitDir :: after → after ≠ [] →
      p.head? ≠ some '/' → (∀ n ∈ before, '\n' ∉ n) → before ≠ [['.'], []] →
      (Rules.excludes (Rule.git :: own) p = true ↔ ¬Rules.TakesBack own p) :=
    fun p before after hp hafter hstart hline hempty =>
      Rules.excludes_cons_git (Rules.git_holds_relative hp hafter hstart hline hempty)
  refine ⟨own, rfl, fun r hr hneg => ?_, hexcludes, ?_⟩
  · obtain ⟨l, hl, hrule⟩ := hown r hr
    exact ⟨l, hl, hrule, Rule.head?_of_negated hrule hneg⟩
  · rintro names base patch ops path before after options hbase rfl hread hpath place hplace hafter hnot
    have hne : before ++ Rules.gitDir :: after ≠ [] := by simp
    obtain ⟨hpieces, hnames⟩ := RealPath.pieces_relative hne (Envelope.read_paths hread path hpath) hplace
    refine ofPatch_refuses_excluded hbase hrules hread hpath hplace ?_ options
    refine (hexcludes _ before after hpieces hafter ?_ ?_ ?_).2 hnot
    · intro hstart
      obtain ⟨rest, hrest⟩ := List.head?_eq_some_iff.1 hstart
      rw [hrest] at hpieces
      have hfirst : [] ∈ before ++ Rules.gitDir :: after := by
        rw [← hpieces]
        simp [Path.pieces, List.splitOn_cons_eq_if_modifyHead]
      exact (hnames [] hfirst).1 rfl
    · exact fun n hn => (hnames n (List.mem_append_left _ hn)).2.2.2
    · rintro rfl
      exact (hnames ['.'] List.mem_cons_self).2.1 rfl

theorem ofPatch_protects_git_partly :
    let own : Rules := [⟨true, .shape (".git/a".toList.map .literal ++ [.nameEnd])⟩]
    let t := FileTree.empty.put [".gitignore".toList] (.file "!.git/a\n".toUTF8)
    let patch := Text.ofLines <| List.map String.toList ["*** Begin Patch", "*** Add File: .git/a", "+x",
      "*** Add File: d/../.git/b", "+x", "*** End Patch"]
    let applied := ofPatch t [] patch { policy := some .failFast, atomic := true } true
    Rules.forPath t [] = .ok (Rule.git :: own) ∧ Rules.excludes (Rule.git :: own) ".git/a".toList = false ∧
      (∃ path, applied.outcome = .error (.ignored path)) ∧ applied.tree = t := by
  intro own t patch applied
  let ops : List Operation := [.add ".git/a".toList ["+x".toList], .add "d/../.git/b".toList ["+x".toList]]
  have hrules : Rules.forPath t [] = .ok (Rule.git :: own) := by decide +kernel
  have hread : Envelope.read patch = .ok ops := by decide +kernel
  have hfree : ∃ d, Draft.ofPatch t ⟨[], false⟩ false patch {} = .ok () d := by
    have hok : (match Draft.ofPatch t ⟨[], false⟩ false patch {} with
      | .ok _ _ => true
      | .error _ _ => false) = true := by decide +kernel
    split at hok
    · next d hd => exact ⟨d, hd⟩
    · cases hok
  obtain ⟨own', hown, -, hexcludes, hrefused⟩ := ofPatch_protects_git hrules
  obtain rfl : own = own' := (List.cons.inj hown).2
  obtain ⟨-, htree, hignored⟩ := hrefused [] ⟨[], false⟩ patch ops "d/../.git/b".toList [] [['b']]
    { policy := some .failFast, atomic := true } (by decide +kernel) rfl hread (by decide +kernel)
    (by decide +kernel) (by decide) (by decide +kernel)
  refine ⟨hrules, ?_, hignored hfree, htree⟩
  refine Bool.eq_false_iff.2 fun hout => ?_
  exact (hexcludes _ [] [['a']] (by decide) (by decide) (by decide) nofun (by decide)).1 hout
    (by decide +kernel)

/-- A line that takes the git directory back in leaves nothing below it excluded. -/
theorem not_ofPatch_protects_git_taken_back :
    ¬∀ (t : FileTree) (dir : Path) (rules : Rules), Rules.forPath t dir = .ok rules →
      ∀ p before after, Path.pieces p = before ++ Rules.gitDir :: after → after ≠ [] →
        p.head? ≠ some '/' → rules.excludes p = true := by
  intro hall
  let t := FileTree.empty.put [".gitignore".toList] (.file "!.git/\n".toUTF8)
  have hrules : Rules.forPath t [] = .ok [Rule.git, { Rule.git with negated := true }] := by decide +kernel
  have hout := hall t [] _ hrules ".git/config".toList [] ["config".toList] (by decide) (by decide) (by decide)
  revert hout
  decide +kernel

end Applied

end Emend
