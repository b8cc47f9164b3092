import Emend.Proofs.FileTree.Footprint
import Emend.Proofs.Ignore.Protection

namespace Emend

theorem Path.parent_eq_self {p : Path} : p.parent = p ↔ p = [] := by
  constructor
  · intro h
    by_contra hp
    exact not_isPrefix_parent hp (h.symm ▸ List.prefix_refl p)
  · rintro rfl
    rfl

namespace Rules

variable {t t' : FileTree} {p dir d above : Path} {b : ByteArray}
  {found found' : Option (Path × ByteArray)}

/-- The directory has an ignore file. Links to one count. -/
def Supplies (t : FileTree) (dir : Path) (b : ByteArray) : Prop :=
  t.find (dir ++ [fileName]) = .ok (.file b)

theorem supplies_iff_readFile (h : Path.hasNull dir = false) : Supplies t dir b ↔
    t.has (dir ++ [fileName]) = true ∧ FileTree.readFile (dir ++ [fileName]) t = .ok b t := by
  have hnull : Path.hasNull (dir ++ [fileName]) = false := by
    rw [Path.hasNull_append, Bool.or_eq_false_iff]
    exact ⟨h, by decide⟩
  unfold Supplies FileTree.has FileTree.readFile
  rw [hnull]
  cases t.find (dir ++ [fileName]) with
  | error e => simp
  | ok e => cases e <;> simp [Except.isOk, Except.toBool]

theorem not_supplies (h : t.has (dir ++ [fileName]) = false ∨ t.hasDir (dir ++ [fileName]) = true)
    (b : ByteArray) : ¬Supplies t dir b := by
  intro hb
  rw [FileTree.has, FileTree.hasDir, hb] at h
  simp [Except.isOk, Except.toBool] at h

theorem Supplies.unique {b' : ByteArray} (h : Supplies t dir b) (h' : Supplies t dir b') : b = b' :=
  Entry.file.inj (Except.ok.inj (h.symm.trans h'))

/-- The walk up from a directory, one step after another: it stops at an ignore file, or where the directory
above is the directory itself. -/
inductive Climbs (t : FileTree) : Path → Option (Path × ByteArray) → Prop
  | found {d : Path} {b : ByteArray} (h : Supplies t d b) : Climbs t d (some (d, b))
  | top {d : Path} (h : ∀ b, ¬Supplies t d b) (htop : d.parent = d) : Climbs t d none
  | up {d : Path} {found : Option (Path × ByteArray)} (h : ∀ b, ¬Supplies t d b) (htop : d.parent ≠ d)
      (hup : Climbs t d.parent found) : Climbs t d found

/-- Of the directories from `dir` upward, `d` is the closest one that has an ignore file. -/
structure Closest (t : FileTree) (dir d : Path) (b : ByteArray) : Prop where
  above : d <+: dir
  supplies : Supplies t d b
  first : ∀ d', d <+: d' → d' <+: dir → d' ≠ d → ∀ b', ¬Supplies t d' b'

theorem Climbs.unique (h : Climbs t dir found) (h' : Climbs t dir found') : found' = found := by
  induction h with
  | found hb =>
    cases h' with
    | found hb' => rw [hb.unique hb']
    | top hnone => exact absurd hb (hnone _)
    | up hnone => exact absurd hb (hnone _)
  | top hnone htop =>
    cases h' with
    | found hb => exact absurd hb (hnone _)
    | top => rfl
    | up _ hne => exact absurd htop hne
  | up hnone hne _ ih =>
    cases h' with
    | found hb => exact absurd hb (hnone _)
    | top _ htop => exact absurd htop hne
    | up _ _ h' => exact ih h'

theorem Climbs.closest (h : Climbs t dir (some (d, b))) : Closest t dir d b := by
  generalize hfound : some (d, b) = found at h
  induction h with
  | found hb =>
    cases hfound
    refine ⟨List.prefix_refl _, hb, fun d' hd hdir hne => ?_⟩
    exact absurd (hdir.eq_of_length_le hd.length_le) hne
  | top => cases hfound
  | up hnone _ _ ih =>
    have ih := ih hfound
    refine ⟨ih.above.trans (Path.parent_isPrefix _), ih.supplies, fun d' hd hdir hne => ?_⟩
    obtain rfl | hdir := Path.eq_or_prefix_parent hdir
    · exact hnone
    · exact ih.first d' hd hdir hne

theorem Climbs.not_supplies (h : Climbs t dir none) : ∀ d, d <+: dir → ∀ b, ¬Supplies t d b := by
  generalize hfound : none = found at h
  induction h with
  | found => cases hfound
  | top hnone htop =>
    intro d hd
    rw [Path.parent_eq_self.1 htop] at hd hnone
    rwa [List.prefix_nil.1 hd]
  | up hnone _ _ ih =>
    intro d hd
    obtain rfl | hd := Path.eq_or_prefix_parent hd
    · exact hnone
    · exact ih hfound d hd

theorem upward_concat (p : Path) (n : Name) : upward (p ++ [n]) = (p ++ [n]) :: upward p := by
  unfold upward
  rw [List.length_append, List.length_singleton, List.range_succ, List.reverse_append, List.reverse_singleton,
    List.singleton_append, List.map_cons, List.take_of_length_le (by simp)]
  refine congrArg _ (List.map_congr_left fun i hi => ?_)
  have hle : i < p.length + 1 := List.mem_range.1 (List.mem_reverse.1 hi)
  exact List.take_append_of_le_length (Nat.lt_succ_iff.1 hle)

theorem upward_eq (dir : Path) : upward dir = dir :: if dir = [] then [] else upward dir.parent := by
  obtain rfl | ⟨dir, n, rfl⟩ := List.eq_nil_or_concat dir
  · rfl
  · rw [List.concat_eq_append, upward_concat, if_neg (by simp), Path.parent, List.dropLast_concat]

theorem nearest_of_supplies (h : Supplies t dir b) : nearest t dir = some (dir, b) := by
  rw [nearest, upward_eq, List.findSome?_cons, h]

theorem nearest_of_not_supplies (h : ∀ b, ¬Supplies t dir b) :
    nearest t dir = if dir = [] then none else nearest t dir.parent := by
  rw [nearest, upward_eq, List.findSome?_cons]
  split
  · next found hfound =>
    split at hfound
    · next b hb => exact absurd hb (h b)
    · cases hfound
  · split <;> rfl

/-- The walk ends, and finds the nearest ignore file. -/
theorem climbs_nearest (t : FileTree) (dir : Path) : Climbs t dir (nearest t dir) := by
  by_cases h : ∃ b, Supplies t dir b
  · obtain ⟨b, hb⟩ := h
    rw [nearest_of_supplies hb]
    exact .found hb
  · have hnone := not_exists.1 h
    rw [nearest_of_not_supplies hnone]
    split
    · next hroot => exact .top hnone (Path.parent_eq_self.2 hroot)
    · next hroot => exact .up hnone (mt Path.parent_eq_self.1 hroot) (climbs_nearest t dir.parent)
termination_by dir.length
decreasing_by
  have hpos := List.length_pos_iff.2 ‹dir ≠ []›
  rw [Path.parent, List.length_dropLast]
  omega

theorem climbs_iff : Climbs t dir found ↔ nearest t dir = found :=
  ⟨fun h => h.unique (climbs_nearest t dir), fun h => h ▸ climbs_nearest t dir⟩

theorem Closest.unique {d' : Path} {b' : ByteArray} (h : Closest t dir d b) (h' : Closest t dir d' b') :
    d' = d ∧ b' = b := by
  have hdir : d' = d := by
    by_contra hne
    obtain hd | hd := List.prefix_or_prefix_of_prefix h.above h'.above
    · exact h.first d' hd h'.above hne _ h'.supplies
    · exact h'.first d hd h.above (Ne.symm hne) _ h.supplies
  subst hdir
  exact ⟨rfl, h'.supplies.unique h.supplies⟩

theorem nearest_eq_some : nearest t dir = some (d, b) ↔ Closest t dir d b := by
  refine ⟨fun h => (climbs_iff.2 h).closest, fun h => ?_⟩
  cases hfound : nearest t dir with
  | none => exact absurd h.supplies ((climbs_iff.2 hfound).not_supplies d h.above b)
  | some found =>
    obtain ⟨rfl, rfl⟩ := h.unique (climbs_iff.2 hfound).closest
    rfl

/-- The entry at `q` is asked for on the way to the path, or to one of the ignore files up to that of `d`. -/
def Consults (t : FileTree) (p d q : Path) : Prop :=
  t.Asks FileTree.maxLinks [] p q ∨
    ∃ d', d <+: d' ∧ d' <+: startOf t p ∧ t.Asks FileTree.maxLinks [] (d' ++ [fileName]) q

/-- A link is followed on the way to the path, or to one of the ignore files up to that of `d`. -/
def ThroughLink (t : FileTree) (p d : Path) : Prop :=
  ∃ l, t.Follows [] p l ∨ ∃ d', d <+: d' ∧ d' <+: startOf t p ∧ t.Follows [] (d' ++ [fileName]) l

theorem startOf_isPrefix (t : FileTree) (p : Path) : startOf t p <+: p := by
  unfold startOf
  split
  · exact Path.parent_isPrefix p
  · exact List.prefix_refl p

theorem ownLines_of_closest (h : Closest t (startOf t p) d b) :
    ownLines t p = (Text.decodeLenient b).brokenLines := by
  rw [ownLines, nearest_eq_some.2 h]

/-- Where all that is consulted is the same, so are the rules. -/
theorem forPath_congr (h : Closest t (startOf t p) d b)
    (hsame : ∀ q, Consults t p d q → t'.get? q = t.get? q) : forPath t' p = forPath t p := by
  have hstart : startOf t' p = startOf t p := by
    rw [startOf, startOf, FileTree.hasFile, FileTree.hasFile,
      FileTree.find_congr fun q hq => hsame q (.inl hq)]
  have hsupplies (d' : Path) (hd : d <+: d') (hdir : d' <+: startOf t p) (b' : ByteArray) :
      Supplies t' d' b' ↔ Supplies t d' b' := by
    unfold Supplies
    rw [FileTree.find_congr fun q hq => hsame q (.inr ⟨d', hd, hdir, hq⟩)]
  have h' : Closest t' (startOf t p) d b :=
    ⟨h.above, (hsupplies d (List.prefix_refl d) h.above b).2 h.supplies,
      fun d' hd hdir hne b' hb => h.first d' hd hdir hne b' ((hsupplies d' hd hdir b').1 hb)⟩
  rw [forPath, forPath, hstart, nearest_eq_some.2 h', nearest_eq_some.2 h]

/-- An ignore file further up is consulted only behind a link, or if the path leads through it. -/
theorem Consults.isPrefix_or_throughLink (h : Consults t p d (above ++ [fileName])) (hp : Path.Plain p)
    (habove : above <+: d) (hne : above ≠ d) : above ++ [fileName] <+: p ∨ ThroughLink t p d := by
  obtain hpath | ⟨d', hd, hdir, hfile⟩ := h
  · obtain hbelow | ⟨l, hl⟩ := hpath.isPrefix_or_follows hp
    · exact .inl hbelow
    · exact .inr ⟨l, .inl hl⟩
  · have hd' := hdir.trans (startOf_isPrefix t p)
    have hname : Path.Plain [fileName] := List.forall_mem_singleton.2 (by decide)
    have hplain : Path.Plain (d' ++ [fileName]) := Path.plain_append.2 ⟨Path.Plain.mono hd' hp, hname⟩
    obtain hbelow | ⟨l, hl⟩ := hfile.isPrefix_or_follows hplain
    · rw [List.nil_append] at hbelow
      obtain hsame | hbelow := List.prefix_concat_iff.1 hbelow
      · -- Then the directory above would be the one below.
        obtain rfl := List.append_cancel_right hsame
        exact absurd (habove.eq_of_length_le hd.length_le) hne
      · exact .inl (hbelow.trans hd')
    · exact .inr ⟨l, .inr ⟨d', hd, hdir, hl⟩⟩

/-- The rules for a path are looked for from the directory of a file, or from the path itself. A directory
has an ignore file if there is something that can be opened; what is missing, dangling or a directory is
passed by. The walk up ends. If it finds nothing, the rule in front stands alone. If it finds an ignore file,
that is the closest one, and the rules are what its lines come to behind the one in front, or that one alone
if a line is malformed. They stay the same whatever else changes in the tree than what was asked for on the
way to the path and to the ignore files up to that one. To these the ignore files further up do not belong,
unless a link is followed on the way or the path leads through a directory of that name. -/
theorem forPath_nearest (t : FileTree) (p : Path) :
    (∀ d b, Path.hasNull d = false → (Supplies t d b ↔
        t.has (d ++ [fileName]) = true ∧ FileTree.readFile (d ++ [fileName]) t = .ok b t)) ∧
      (∀ d, t.has (d ++ [fileName]) = false ∨ t.hasDir (d ++ [fileName]) = true → ∀ b, ¬Supplies t d b) ∧
      (∃! found, Climbs t (startOf t p) found) ∧
      (Climbs t (startOf t p) none →
        (∀ d, d <+: startOf t p → ∀ b, ¬Supplies t d b) ∧ forPath t p = .ok [Rule.git]) ∧
      ∀ d b, Climbs t (startOf t p) (some (d, b)) →
        Closest t (startOf t p) d b ∧ Compiled (Text.decodeLenient b).brokenLines (forPath t p) ∧
          (∀ t', (∀ q, Consults t p d q → t'.get? q = t.get? q) → forPath t' p = forPath t p) ∧
          (Path.Plain p → ∀ above, above <+: d → above ≠ d → Consults t p d (above ++ [fileName]) →
            above ++ [fileName] <+: p ∨ ThroughLink t p d) := by
  refine ⟨fun _ _ hnull => supplies_iff_readFile hnull, fun _ => not_supplies, ?_, fun hnone => ?_, ?_⟩
  · exact ⟨_, climbs_nearest t _, fun _ h => (climbs_nearest t _).unique h⟩
  · have hlines : ownLines t p = [] := by rw [ownLines, climbs_iff.1 hnone]
    have hcompiled := forPath_compiled t p
    rw [hlines] at hcompiled
    refine ⟨hnone.not_supplies, ?_⟩
    have hwhole := hcompiled.whole
    rw [List.append_nil, ofLines_default] at hwhole
    exact hwhole nofun
  · intro d b hfound
    have hclosest := hfound.closest
    refine ⟨hclosest, ?_, fun t' => forPath_congr hclosest, fun hp above habove hne h => ?_⟩
    · exact ownLines_of_closest hclosest ▸ forPath_compiled t p
    · exact h.isPrefix_or_throughLink hp habove hne

/-- A directory that is called like an ignore file does not end the walk, and what is above the file that
does is not looked at. -/
theorem forPath_nearest_beyond_directory :
    let t := ((((FileTree.empty.put [['a']] .dir).put [['a'], fileName] (.file "*.log\n".toUTF8)).put
      [['a'], ['b']] .dir).put [['a'], ['b'], fileName] .dir).put [['a'], ['b'], ['f']] (.file "x".toUTF8)
    let p := [['a'], ['b'], ['f']]
    let t' := t.put [fileName] (.file "f\n".toUTF8)
    Climbs t (startOf t p) (some ([['a']], "*.log\n".toUTF8)) ∧ forPath t' p = forPath t p := by
  intro t p t'
  obtain ⟨-, hpassed, -, -, hfound⟩ := forPath_nearest t p
  have hclimbs : Climbs t (startOf t p) (some ([['a']], "*.log\n".toUTF8)) := by
    have hstart : startOf t p = [['a'], ['b']] := by decide +kernel
    have hfile : t.find [['a'], fileName] = .ok (.file "*.log\n".toUTF8) := by decide +kernel
    rw [hstart]
    exact .up (hpassed _ (.inr (by decide +kernel))) (by decide) (.found hfile)
  obtain ⟨-, -, hsame, habove⟩ := hfound _ _ hclimbs
  have hfree : t.LinkFree := by
    refine .put (.put (.put (.put (.put FileTree.linkFree_empty ?_ ?_) ?_ ?_) ?_ ?_) ?_ ?_) ?_ ?_ <;> simp
  have hplain : Path.Plain p := by
    show ∀ n ∈ p, _
    decide
  refine ⟨hclimbs, hsame t' fun q hq => ?_⟩
  have hne : q ≠ [fileName] := by
    rintro rfl
    obtain hbelow | ⟨l, hl | ⟨d', -, -, hl⟩⟩ := habove hplain [] (by decide) (by decide) hq
    · exact absurd hbelow (by decide)
    · obtain ⟨target, hl⟩ := hl.exists_link
      exact hfree l target hl
    · obtain ⟨target, hl⟩ := hl.exists_link
      exact hfree l target hl
  rw [FileTree.get?_put t (by decide), if_neg hne]

/-- The closest ignore file may be a link to one further up. -/
theorem not_forPath_of_above :
    ¬∀ (t t' : FileTree) (p d above : Path) (b : ByteArray), Closest t (startOf t p) d b → above <+: d →
      above ≠ d → (∀ q, q ≠ above ++ [fileName] → t'.get? q = t.get? q) → forPath t' p = forPath t p := by
  intro hall
  let t := ((FileTree.empty.put [fileName] (.file "x\n".toUTF8)).put [['a']] .dir).put [['a'], fileName]
    (.link "../.gitignore".toList)
  let t' := t.put [fileName] (.file "y\n".toUTF8)
  have hclosest : Closest t (startOf t [['a']]) [['a']] "x\n".toUTF8 := nearest_eq_some.1 (by decide +kernel)
  have hsame := hall t t' [['a']] [['a']] [] _ hclosest (by decide) (by decide) fun q hq => by
    rw [FileTree.get?_put t (by decide)]
    exact if_neg hq
  revert hsame
  decide +kernel

end Rules

end Emend
