import Emend.Proofs.FileTree.Call

namespace Emend

namespace Path

theorem toText_isPrefix {p q : Path} (hp : p ≠ []) : p.toText <+: (p ++ q).toText := by
  have hinter : ['/'].intercalate p <+: ['/'].intercalate (p ++ q) := by
    induction p with
    | nil => exact absurd rfl hp
    | cons n p ih =>
      cases p with
      | nil => cases q <;> simp [List.intercalate]
      | cons m p =>
        have ih := ih (by simp)
        simpa [List.intercalate] using ih
  exact List.prefix_cons_inj _ |>.2 hinter

theorem intercalate_cons (n : Name) {p : Path} (hp : p ≠ []) :
    ['/'].intercalate (n :: p) = n ++ '/' :: ['/'].intercalate p := by
  obtain ⟨m, p, rfl⟩ := List.exists_cons_of_ne_nil hp
  simp [List.intercalate]

theorem hasNull_append {p q : List Name} : hasNull (p ++ q) = (hasNull p || hasNull q) :=
  List.any_append

theorem hasNull_mono {p q : Path} (h : p <+: q) (hq : hasNull q = false) :
    hasNull p = false := by
  obtain ⟨r, rfl⟩ := h
  rw [hasNull_append, Bool.or_eq_false_iff] at hq
  exact hq.1

theorem parent_isPrefix (p : Path) : p.parent <+: p := List.dropLast_prefix p

theorem not_isPrefix_parent {p : Path} (hp : p ≠ []) : ¬p <+: p.parent := by
  intro h
  have hlen := h.length_le
  have hpos := List.length_pos_iff.2 hp
  rw [parent, List.length_dropLast] at hlen
  omega

theorem eq_or_prefix_parent {p q : Path} (h : q <+: p) : q = p ∨ q <+: p.parent := by
  by_cases hp : p = []
  · subst hp
    exact .inl (List.prefix_nil.1 h)
  · rw [← List.dropLast_concat_getLast hp] at h
    obtain h | h := List.prefix_concat_iff.1 h
    · exact .inl (h.trans (List.dropLast_concat_getLast hp))
    · exact .inr h

end Path

namespace FileTree

open EStateM

variable {t t' t'' : FileTree} {p q : Path}

theorem tooLong_mono (h : p <+: q) (hq : tooLong q = false) : tooLong p = false := by
  obtain ⟨r, rfl⟩ := h
  cases p with
  | nil => decide
  | cons n p =>
    obtain ⟨s, hs⟩ := Path.toText_isPrefix (p := n :: p) (q := r) (by simp)
    simp only [tooLong, decide_eq_false_iff_not, Nat.not_lt] at hq ⊢
    rw [← hs, Text.size_encode_append] at hq
    omega

theorem fits_nil : Fits [] := ⟨by decide, nofun⟩

theorem Fits.mono (h : p <+: q) (hq : Fits q) : Fits p :=
  ⟨tooLong_mono h hq.1, fun n hn => hq.2 n (h.mem hn)⟩

/-- At most directories on the path have been added. -/
def GrowsTo (t : FileTree) (p : Path) (t' : FileTree) : Prop :=
  ∀ q, t'.get? q = t.get? q ∨ q <+: p ∧ t.get? q = none ∧ t'.get? q = some .dir

namespace GrowsTo

theorem refl (t : FileTree) (p : Path) : t.GrowsTo p t := fun _ => .inl rfl

theorem mono (h : t.GrowsTo p t') (hpq : p <+: q) : t.GrowsTo q t' :=
  fun r => (h r).imp_right fun ⟨hr, he⟩ => ⟨hr.trans hpq, he⟩

theorem trans (h : t.GrowsTo p t') (h' : t'.GrowsTo p t'') : t.GrowsTo p t'' := by
  intro q
  obtain he | ⟨hq, hn, hd⟩ := h q
  · rw [← he]
    exact h' q
  · obtain he' | ⟨-, hn', -⟩ := h' q
    · exact .inr ⟨hq, hn, he'.trans hd⟩
    · rw [hn'] at hd
      cases hd

theorem put_dir (hp : p ≠ []) (hn : t.get? p = none) : t.GrowsTo p (t.put p .dir) := by
  intro q
  rw [get?_put t hp]
  split
  · next hq => exact .inr ⟨hq ▸ List.prefix_refl p, hq ▸ hn, rfl⟩
  · exact .inl rfl

theorem get?_eq_some {e : Entry} (h : t.GrowsTo p t') (he : t.get? q = some e) :
    t'.get? q = some e := by
  obtain hs | ⟨-, hn, -⟩ := h q
  · rw [hs, he]
  · rw [hn] at he
    cases he

theorem get?_eq_none (h : t.GrowsTo p t') (hn : t'.get? q = none) : t.get? q = none := by
  cases he : t.get? q with
  | none => rfl
  | some e =>
    rw [h.get?_eq_some he] at hn
    cases hn

theorem linkFree (h : t.GrowsTo p t') (hl : t.LinkFree) : t'.LinkFree := by
  intro q target he
  obtain h | ⟨-, -, hd⟩ := h q
  · exact hl q target (h ▸ he)
  · rw [hd] at he
    cases he

theorem of_not_isPrefix (h : t.GrowsTo p t') (hq : ¬q <+: p) : t'.get? q = t.get? q :=
  (h q).resolve_right fun ⟨hp, _⟩ => hq hp

end GrowsTo

theorem Fresh.grows {reserved : List Name} {kind : TempKind} {n : Nat} (h : t.Fresh reserved p kind n)
    (hg : t.GrowsTo p t') : t'.Fresh reserved p kind n := by
  refine ⟨h.lt, h.unreserved, (hg.of_not_isPrefix fun hp => ?_).trans h.free⟩
  have hlen := hp.length_le
  rw [List.length_append, List.length_singleton] at hlen
  exact Nat.not_succ_le_self _ hlen

def Passable (t : FileTree) (p : Path) : Prop :=
  ∀ q, q <+: p → t.get? q = none ∨ t.get? q = some .dir

theorem Passable.mono (h : t.Passable q) (hp : p <+: q) : t.Passable p :=
  fun r hr => h r (hr.trans hp)

theorem Passable.grows (h : t.Passable q) (hg : t.GrowsTo p t') : t'.Passable q := by
  intro r hr
  obtain he | ⟨-, -, hd⟩ := hg r
  · rw [he]
    exact h r hr
  · exact .inr hd

/-- The directories on the path are there, and at most they have been added. -/
structure Opened (t : FileTree) (p : Path) (t' : FileTree) : Prop where
  fits : Fits p
  grows : t.GrowsTo p t'
  dirs : ∀ q, q <+: p → t'.get? q = some .dir

namespace Opened

theorem passable (h : t.Opened p t') : t.Passable p := by
  intro q hq
  obtain he | ⟨-, hn, -⟩ := h.grows q
  · exact .inr (he ▸ h.dirs q hq)
  · exact .inl hn

theorem holds (h : t.Opened p t') : t'.Holds p := fun q hq _ => h.dirs q hq

theorem get?_self (h : t.Opened p t') : t'.get? p = some .dir := h.dirs p (List.prefix_refl p)

theorem rooted (h : t.Opened p t') (hroot : t.Rooted) : t'.Rooted := by
  intro q n hq
  obtain he | ⟨hqn, -, -⟩ := h.grows (q ++ [n])
  · rw [he] at hq
    exact h.grows.get?_eq_some (hroot q n hq)
  · exact h.dirs q ((List.prefix_append q [n]).trans hqn)

end Opened

/-- Nothing keeps the directories on the path from being made. -/
structure Openable (t : FileTree) (p : Path) : Prop where
  hasNull : Path.hasNull p = false
  fits : Fits p
  passable : t.Passable p

theorem Openable.mono (h : t.Openable q) (hp : p <+: q) : t.Openable p :=
  ⟨Path.hasNull_mono hp h.hasNull, h.fits.mono hp, h.passable.mono hp⟩

/-- The directory is there, and nothing keeps a temporary file from being made in it. -/
structure Drawable (t : FileTree) (reserved : List Name) (kind : TempKind) (p : Path) : Prop where
  hasNull : Path.hasNull p = false
  short : tooLong (p ++ [tempName kind 0]) = false
  fits : Fits p
  dirs : ∀ q, q <+: p → t.get? q = some .dir
  spare : ∃ n, t.Fresh reserved p kind n

theorem Drawable.holds {reserved : List Name} {kind : TempKind} (h : t.Drawable reserved kind p) (n : Name) :
    t.Holds (p ++ [n]) :=
  holds_concat.2 ⟨fun q hq _ => h.dirs q hq, h.dirs p (List.prefix_refl p)⟩

theorem tooLong_concat_congr {m n : Name} (h : m.encode.size = n.encode.size) :
    tooLong (p ++ [m]) = tooLong (p ++ [n]) := by
  have hinter : (Text.encode (['/'].intercalate (p ++ [m]))).size =
      (Text.encode (['/'].intercalate (p ++ [n]))).size := by
    induction p with
    | nil => simpa [List.intercalate] using h
    | cons k p ih =>
      rw [List.cons_append, List.cons_append, Path.intercalate_cons k (by simp),
        Path.intercalate_cons k (by simp), Text.size_encode_append, Text.size_encode_append,
        Text.size_encode_cons, Text.size_encode_cons, ih]
  rw [tooLong, tooLong, Path.toText, Path.toText, Text.size_encode_cons, Text.size_encode_cons, hinter]

theorem Drawable.reaches {reserved : List Name} {kind : TempKind} {n : Nat}
    (h : t.Drawable reserved kind p) (hn : n < tempNames) : t.Reaches (p ++ [tempName kind n]) := by
  have hsize := size_tempName kind hn
  refine ⟨?_, ⟨?_, ?_⟩, h.holds _⟩
  · rw [Path.hasNull_append, Bool.or_eq_false_iff]
    exact ⟨h.hasNull, hasNull_tempName kind _⟩
  · rw [tooLong_concat_congr (n := tempName kind 0), h.short]
    rw [hsize, size_tempName kind (by decide)]
  · apply List.forall_mem_append.2 ⟨h.fits.2, List.forall_mem_singleton.2 _⟩
    rw [hsize]
    decide

theorem Drawable.reaches_drawn {reserved : List Name} {kind : TempKind} {temp : Path}
    (h : t.Drawable reserved kind p) (hd : t.Drawn reserved kind temp) (hparent : temp.parent = p) :
    t.Reaches temp := by
  obtain ⟨dir, n, rfl, hn⟩ := hd.name
  obtain rfl : dir = p := by simpa [Path.parent] using hparent
  exact h.reaches hn.lt

theorem makeLevels_steps (inv : Path → FileTree → Prop) (hstart : ∀ q, q <+: p → inv q t)
    (hmono : ∀ (q : Path) t', q <+: p → inv q.parent t' → inv q t')
    (hstep : ∀ (q : Path) t', q <+: p → q ≠ [] → inv q.parent t' →
      (ensureDir q).Ends t' (fun _ => inv q) (fun _ => inv q)) :
    (makeLevels p).Ends t (fun _ => inv p) (fun _ => inv p) := by
  -- The levels above the path come first, so the induction is on its length.
  induction hn : p.length generalizing p with
  | zero =>
    obtain rfl := List.length_eq_zero_iff.1 hn
    refine (ends_congr (y := pure ()) ?_).2 (hstart [] (List.prefix_refl []))
    rw [makeLevels]
    rfl
  | succ n ih =>
    have hne : p ≠ [] := List.ne_nil_of_length_eq_add_one hn
    have hparent := Path.parent_isPrefix p
    have hself := List.prefix_refl p
    have ih := ih (fun q hq => hstart q (hq.trans hparent))
      (fun q t' hq => hmono q t' (hq.trans hparent)) (fun q t' hq => hstep q t' (hq.trans hparent))
      (by rw [Path.parent, List.length_dropLast, hn, Nat.add_sub_cancel])
    have hlast {t' : FileTree} (h : inv p.parent t') (he : makeLevels p t = ensureDir p t') :
        (makeLevels p).Ends t (fun _ => inv p) (fun _ => inv p) :=
      (ends_congr he).2 (hstep p t' hself hne h)
    by_cases hhas : t.has p.parent
    · exact hlast (hstart _ hparent) (by rw [makeLevels, dif_neg hne, if_pos hhas])
    · cases hm : makeLevels p.parent t with
      | ok u t' => exact hlast (ih.of_ok hm) (by rw [makeLevels, dif_neg hne, if_neg hhas, hm])
      | error e t' =>
        have hinv := ih.of_error hm
        have heq := makeLevels.eq_def p t
        rw [dif_neg hne, if_neg hhas, hm] at heq
        split at heq
        · next h => cases h
        · next h =>
          cases h
          exact hlast hinv heq
        · next h =>
          cases h
          rw [EStateM.Ends, heq]
          exact hmono p _ hself hinv

theorem levels_mono (h : ∀ q, q <+: p → q ≠ p → t.has q = true → t'.has q = true) :
    t'.levels p ≤ t.levels p := by
  induction hn : p.length generalizing p with
  | zero =>
    obtain rfl := List.length_eq_zero_iff.1 hn
    rw [levels, dif_pos rfl]
    exact Nat.zero_le _
  | succ n ih =>
    have hp : p ≠ [] := List.ne_nil_of_length_eq_add_one hn
    have hparent := Path.parent_isPrefix p
    have hne {q : Path} (hq : q <+: p.parent) : q ≠ p := by
      rintro rfl
      exact Path.not_isPrefix_parent hp hq
    have hlen : p.parent.length = n := by
      rw [Path.parent, List.length_dropLast, hn, Nat.add_sub_cancel]
    have ih := ih (fun q hq _ => h q (hq.trans hparent) (hne hq)) hlen
    have hone : 1 ≤ t.levels p := by
      rw [levels, dif_neg hp]
      split
      · exact Nat.le_refl 1
      · exact Nat.le_add_left 1 _
    rw [levels, dif_neg hp]
    split
    · exact hone
    · next hno =>
      have hno' : ¬t.has p.parent = true :=
        fun hhas => hno (h _ hparent (hne (List.prefix_refl _)) hhas)
      rw [levels.eq_def t p, dif_neg hp, if_neg hno']
      exact Nat.add_le_add_right ih 1

theorem levels_le (hq : t.has q = true) (h : q <+: p) (hne : q ≠ p) :
    t.levels p ≤ p.length - q.length := by
  induction hn : p.length generalizing p with
  | zero =>
    obtain rfl := List.length_eq_zero_iff.1 hn
    exact absurd (List.prefix_nil.1 h) hne
  | succ n ih =>
    have hp : p ≠ [] := List.ne_nil_of_length_eq_add_one hn
    have hlen : p.parent.length = n := by
      rw [Path.parent, List.length_dropLast, hn, Nat.add_sub_cancel]
    have hparent := (Path.eq_or_prefix_parent h).resolve_left hne
    have hle := hparent.length_le
    rw [levels, dif_neg hp]
    split
    · omega
    · next hhas =>
      have hqp : q ≠ p.parent := by
        rintro rfl
        exact hhas hq
      have := ih hparent hqp hlen
      have := List.IsPrefix.length_le hparent
      have hlt : q.length ≠ n := fun he => hqp (hparent.eq_of_length (he.trans hlen.symm))
      omega

theorem levels_eq (hnone : ∀ q, q <+: p → q ≠ [] → q ≠ p → t.has q = false) :
    t.levels p = p.length := by
  induction hn : p.length generalizing p with
  | zero =>
    obtain rfl := List.length_eq_zero_iff.1 hn
    rw [levels, dif_pos rfl]
  | succ n ih =>
    have hp : p ≠ [] := List.ne_nil_of_length_eq_add_one hn
    have hlen : p.parent.length = n := by
      rw [Path.parent, List.length_dropLast, hn, Nat.add_sub_cancel]
    have hparent := Path.parent_isPrefix p
    have hne : p.parent ≠ p := fun he => by
      rw [he, hn] at hlen
      omega
    rw [levels, dif_neg hp]
    split
    · next hhas =>
      by_cases hroot : p.parent = []
      · rw [hroot] at hlen
        exact congrArg (· + 1) hlen
      · rw [hnone _ hparent hroot hne] at hhas
        cases hhas
    · refine congrArg (· + 1) (ih (fun q hq hq' _ => hnone q (hq.trans hparent) hq' ?_) hlen)
      rintro rfl
      exact hne (hparent.eq_of_length_le hq.length_le)

section

variable (hl : t.LinkFree) (hp : Path.Plain p)
include hl hp

theorem hasDir_iff : t.hasDir p ↔ Fits p ∧ t.Holds p ∧ t.get? p = some .dir := by
  rw [← find_eq_ok hl hp]
  unfold hasDir
  split
  · next h => simp [h]
  · next h => simpa using h

theorem ensureDir_opens :
    (ensureDir p).Ends t (fun _ t' => t.Opened p t')
      (fun _ t' => t' = t ∧
        ¬(Path.hasNull p = false ∧ Fits p ∧ t.Holds p ∧ t.Passable p)) := by
  have hopened (h : t.hasDir p) : t.Opened p t := by
    obtain ⟨hfits, hholds, hd⟩ := (hasDir_iff hl hp).1 h
    refine ⟨hfits, .refl t p, fun q hq => ?_⟩
    by_cases he : q = p
    · rw [he, hd]
    · exact hholds q hq he
  unfold EStateM.Ends ensureDir makeDir
  obtain ⟨hr, hs⟩ | ⟨hr, e, hs⟩ := callSpot_cases hl hp .entry
  · simp only [hs]
    cases hg : t.get? p with
    | none =>
      have hne := ne_nil_of_get? hg nofun
      simp only [Option.isSome_none, Bool.false_eq_true, if_false]
      refine ⟨hr.2.1, .put_dir hne hg, fun q hq => ?_⟩
      rw [get?_put t hne]
      split
      · rfl
      · next he => exact hr.2.2 q hq he
    | some e =>
      simp only [Option.isSome_some, if_true]
      by_cases hd : t.hasDir p
      · simp only [hd, if_true]
        exact hopened hd
      · simp only [hd]
        refine ⟨rfl, fun ⟨_, hfits, hholds, hpass⟩ => hd ((hasDir_iff hl hp).2 ⟨hfits, hholds, ?_⟩)⟩
        exact (hpass p (List.prefix_refl p)).resolve_left (by simp [hg])
  · simp only [hs]
    by_cases hd : t.hasDir p
    · simp only [hd, if_true]
      exact hopened hd
    · simp only [hd]
      exact ⟨rfl, fun h => hr ⟨h.1, h.2.1, h.2.2.1⟩⟩

omit hl hp in
theorem holds_of_dirs (hd : ∀ q, q <+: p.parent → t.get? q = some .dir) : t.Holds p :=
  fun q hq he => hd q ((Path.eq_or_prefix_parent hq).resolve_left he)

theorem holds_of_has_parent (hhas : t.has p.parent = true) (ho : t.Openable p) : t.Holds p := by
  obtain ⟨-, hholds, hsome⟩ := (has_iff hl hp.parent).1 hhas
  refine holds_of_dirs fun q hq => ?_
  by_cases he : q = p.parent
  · subst he
    exact (ho.passable _ (Path.parent_isPrefix p)).resolve_left (Option.isSome_iff_ne_none.1 hsome)
  · exact hholds q hq he

theorem makeLevels_last {t' : FileTree} (hg : t.GrowsTo p.parent t') (hroot : t.Rooted → t'.Rooted)
    (h : makeLevels p t = ensureDir p t') (hholds : t.Openable p → t'.Holds p) :
    (makeLevels p).Ends t (fun _ t'' => t.Opened p t'')
      (fun _ t'' => t.GrowsTo p t'' ∧ (t.Rooted → t''.Rooted) ∧ ¬t.Openable p) := by
  have hg := hg.mono (Path.parent_isPrefix p)
  apply (ends_congr h).2
  apply (ensureDir_opens (hg.linkFree hl) hp).mono
  · intro _ t'' ho
    exact ⟨ho.fits, hg.trans ho.grows, ho.dirs⟩
  · rintro _ _ ⟨rfl, hnot⟩
    exact ⟨hg, hroot, fun ho => hnot ⟨ho.hasNull, ho.fits, hholds ho, ho.passable.grows hg⟩⟩

theorem makeLevels_opens :
    (makeLevels p).Ends t (fun _ t' => t.Opened p t')
      (fun _ t' => t.GrowsTo p t' ∧ (t.Rooted → t'.Rooted) ∧ ¬t.Openable p) := by
  -- The levels above the path come first, so the induction is on its length.
  induction hn : p.length generalizing p with
  | zero =>
    obtain rfl := List.length_eq_zero_iff.1 hn
    refine (ends_congr (y := pure ()) ?_).2 ⟨fits_nil, .refl t [], ?_⟩
    · rw [makeLevels]
      rfl
    · intro q hq
      rw [List.prefix_nil.1 hq]
      rfl
  | succ n ih =>
    have hne : p ≠ [] := List.ne_nil_of_length_eq_add_one hn
    have ih := ih hp.parent (by rw [Path.parent, List.length_dropLast, hn, Nat.add_sub_cancel])
    by_cases hhas : t.has p.parent
    · have heq : makeLevels p t = ensureDir p t := by rw [makeLevels, dif_neg hne, if_pos hhas]
      exact makeLevels_last hl hp (.refl t _) id heq (holds_of_has_parent hl hp hhas)
    · have heq := makeLevels.eq_def p t
      rw [dif_neg hne, if_neg hhas] at heq
      cases hm : makeLevels p.parent t with
      | ok u t' =>
        have ho := ih.of_ok hm
        rw [hm] at heq
        exact makeLevels_last hl hp ho.grows ho.rooted heq fun _ => holds_of_dirs ho.dirs
      | error e t' =>
        obtain ⟨hg, hroot, hnot⟩ := ih.of_error hm
        have hnot : ¬t.Openable p := fun h => hnot (h.mono (Path.parent_isPrefix p))
        rw [hm] at heq
        split at heq
        · next h => cases h
        · next h =>
          cases h
          exact makeLevels_last hl hp hg hroot heq fun h => absurd h hnot
        · next h =>
          cases h
          rw [EStateM.Ends, heq]
          exact ⟨hg.mono (Path.parent_isPrefix p), hroot, hnot⟩

/-- The directories on a path are made unless they are too many or something keeps them from it. -/
theorem makeDirs_opens :
    (makeDirs p).Ends t (fun _ t' => t.Opened p t')
      (fun e t' => t.GrowsTo p t' ∧ (t.Rooted → t'.Rooted) ∧
        (e = .aborted .tooDeep ∧ maxDepth < t.levels p ∨ ¬t.Openable p)) := by
  unfold makeDirs
  by_cases hdeep : maxDepth < t.levels p
  · simp only [EStateM.Ends, hdeep, if_true]
    exact ⟨.refl t p, id, .inl ⟨trivial, trivial⟩⟩
  · simp only [EStateM.Ends, hdeep, if_false]
    apply (makeLevels_opens hl hp).mono
    · exact fun _ _ h => h
    · rintro _ _ ⟨hg, hroot, hnot⟩
      exact ⟨hg, hroot, .inr hnot⟩

/-- A temporary file is made in a directory that is there, unless its name is refused or none is left. -/
theorem makeTemp_draws (reserved : List Name) (kind : TempKind) (bytes : ByteArray) :
    (makeTemp reserved p kind bytes).Ends t
      (fun temp t' => t.Drawable reserved kind p ∧ t.Drawn reserved kind temp ∧ temp.parent = p ∧
        t' = t.put temp (.file bytes))
      (fun _ t' => t' = t ∧ ¬t.Drawable reserved kind p) := by
  unfold EStateM.Ends makeTemp
  by_cases hnull : Path.hasNull p
  · rw [if_pos hnull]
    refine ⟨rfl, fun h => ?_⟩
    rw [h.hasNull] at hnull
    cases hnull
  · rw [if_neg hnull]
    by_cases hlong : tooLong (p ++ [tempName kind 0])
    · rw [if_pos hlong]
      refine ⟨rfl, fun h => ?_⟩
      rw [h.short] at hlong
      cases hlong
    · rw [if_neg hlong]
      have hshort := Bool.eq_false_iff.2 hlong
      cases hs : t.locate .content maxLinks .root p with
      | error e =>
        refine ⟨rfl, fun h => ?_⟩
        rw [(locate_eq_ok hl hp).2 ⟨h.fits.2, fun q hq _ => h.dirs q hq, rfl⟩] at hs
        cases hs
      | ok s =>
        obtain ⟨hnames, hholds, rfl⟩ := (locate_eq_ok hl hp).1 hs
        have hself (hd : t.get? p ≠ some .dir) : ¬t.Drawable reserved kind p :=
          fun h => hd (h.dirs p (List.prefix_refl p))
        dsimp only
        cases hg : t.get? p with
        | none => exact ⟨rfl, hself (by simp [hg])⟩
        | some e =>
          cases e with
          | file b => exact ⟨rfl, hself (by simp [hg])⟩
          | link target => exact ⟨rfl, hself (by simp [hg])⟩
          | dir =>
            dsimp only
            cases hn : t.freeNumber reserved p kind with
            | none => exact ⟨rfl, fun ⟨_, _, _, _, n, hfresh⟩ => not_fresh_of_freeNumber hn n hfresh⟩
            | some n =>
              have hfresh := fresh_of_freeNumber hn
              refine ⟨⟨Bool.eq_false_iff.2 hnull, hshort, ?_, fun q hq => ?_, n, hfresh⟩, hfresh.drawn hp,
                List.dropLast_concat, rfl⟩
              · exact ⟨tooLong_mono (List.prefix_append p _) hshort, hnames⟩
              · by_cases he : q = p
                · rw [he, hg]
                · exact hholds q hq he

end

end FileTree

end Emend
