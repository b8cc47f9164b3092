import Emend.Proofs.FileTree.Opening

namespace Emend

namespace FileTree

open EStateM

variable {t t' t'' : FileTree} {p : Path} {last : LastName} {names : List Name} {s : Spot}

theorem callSpot_eq_ok :
    t.callSpot last names = .ok s ↔ Path.hasNull names = false ∧ t.spot last names = .ok s := by
  unfold callSpot
  by_cases hnull : Path.hasNull names
  · simp [hnull]
  · cases hs : t.spot last names <;> simp [hnull]

theorem makeDir_effect (t : FileTree) (names : List Name) :
    (makeDir names).Ends t
      (fun _ t' => ∃ s, t.spot .entry names = .ok s ∧ t.get? s.path = none ∧ t' = t.put s.path .dir)
      (fun _ t' => t' = t) := by
  unfold EStateM.Ends makeDir
  cases hs : t.callSpot .entry names with
  | error e => rfl
  | ok s =>
    cases hn : t.get? s.path with
    | some e => simp [hn]
    | none =>
      simp only [hn, Option.isSome_none, Bool.false_eq_true, if_false]
      exact ⟨s, (callSpot_eq_ok.1 hs).2, hn, rfl⟩

theorem ensureDir_effect (t : FileTree) (names : List Name) :
    (ensureDir names).Ends t
      (fun _ t' => t' = t ∨
        ∃ s, t.spot .entry names = .ok s ∧ t.get? s.path = none ∧ t' = t.put s.path .dir)
      (fun _ t' => t' = t) := by
  have hmake := makeDir_effect t names
  unfold EStateM.Ends ensureDir
  cases hm : makeDir names t with
  | ok u t' => exact .inr (hmake.of_ok hm)
  | error e t' =>
    obtain rfl := hmake.of_error hm
    by_cases hd : t'.hasDir names
    · simp [hd]
    · simp [hd]

theorem readFile_effect (t : FileTree) (names : List Name) :
    (readFile names).Ends t (fun _ t' => t' = t) (fun _ t' => t' = t) := by
  unfold EStateM.Ends readFile
  by_cases hnull : Path.hasNull names
  · simp only [hnull, if_true]
  · cases hf : t.find names with
    | error e => simp [hnull]
    | ok e => cases e <;> simp [hnull]

def Writes (t : FileTree) (names : List Name) (t' : FileTree) : Prop :=
  ∃ s bytes, t.spot .newFile names = .ok s ∧ t.get? s.path ≠ some .dir ∧ t' = t.put s.path (.file bytes)

theorem writeFile_effect (t : FileTree) (names : List Name) (bytes : ByteArray) :
    (writeFile names bytes).Ends t (fun _ t' => t.Writes names t') (fun _ t' => t' = t) := by
  unfold EStateM.Ends writeFile
  cases hs : t.callSpot .newFile names with
  | error e => rfl
  | ok s =>
    by_cases hdir : t.get? s.path = some .dir
    · simp only [hdir, if_true]
    · simp only [hdir, if_false]
      exact ⟨s, bytes, (callSpot_eq_ok.1 hs).2, hdir, rfl⟩

theorem copyFile_effect (t : FileTree) (source target : List Name) :
    (copyFile source target).Ends t (fun _ t' => t.Writes (t.copyTarget source target) t')
      (fun _ t' => t' = t) := by
  unfold EStateM.Ends copyFile
  dsimp only
  generalize t.copyTarget source target = target'
  by_cases hnull : Path.hasNull source || Path.hasNull target'
  · simp only [hnull, if_true]
  · simp only [hnull, Bool.false_eq_true, if_false]
    by_cases hsame : t.sameEntry source target'
    · simp only [hsame, if_true]
    · simp only [hsame, Bool.false_eq_true, if_false]
      have hread := readFile_effect t source
      cases hr : readFile source t with
      | error e t' => exact hread.of_error hr
      | ok bytes t' =>
        obtain rfl := hread.of_ok hr
        have hwrite := writeFile_effect t' target' bytes
        cases hw : writeFile target' bytes t' with
        | ok u t'' => simpa only [hw] using hwrite.of_ok hw
        | error e t'' =>
          obtain rfl := hwrite.of_error hw
          cases e with
          | on code ms =>
            cases code with
            | isDir => by_cases hhas : t''.has target' <;> simp [hw, hhas]
            | _ => simp only [hw]
          | _ => simp only [hw]

def Removes (t : FileTree) (names : List Name) (t' : FileTree) : Prop :=
  ∃ s, t.spot .entry names = .ok s ∧ t.get? s.path ≠ some .dir ∧ t' = t.erase s.path

theorem removeFile_effect (t : FileTree) (names : List Name) :
    (removeFile names).Ends t (fun _ t' => t.Removes names t') (fun _ t' => t' = t) := by
  unfold EStateM.Ends removeFile
  cases hs : t.callSpot .entry names with
  | error e => rfl
  | ok s =>
    have hs := (callSpot_eq_ok.1 hs).2
    dsimp only
    cases he : t.get? s.path with
    | none => rfl
    | some e =>
      cases e with
      | dir => rfl
      | file b => exact ⟨s, hs, by simp [he], rfl⟩
      | link target => exact ⟨s, hs, by simp [he], rfl⟩

/-- What stood where some names lead is where others do, if they do not lead to the same place. Neither
is a directory. -/
structure Moves (t : FileTree) (source target : List Name) (t' : FileTree) (s d : Spot) (e : Entry) :
    Prop where
  hasNull : Path.hasNull source = false ∧ Path.hasNull target = false
  source : t.spot .entry source = .ok s
  target : t.spot .entry target = .ok d
  entry : t.get? s.path = some e
  ne_dir : e ≠ .dir
  free : t.get? d.path ≠ some .dir
  tree : t' = if s.path = d.path then t else (t.erase s.path).put d.path e

namespace Moves

variable {source target : List Name} {d : Spot} {e : Entry}

theorem ne_dir_source (h : t.Moves source target t' s d e) : t.get? s.path ≠ some .dir := by
  rw [h.entry]
  exact fun he => h.ne_dir (Option.some.inj he)

theorem exists_file (h : t.Moves source target t' s d e)
    (hl : ∀ target, t.get? s.path ≠ some (.link target)) : ∃ b, t.get? s.path = some (.file b) := by
  rw [h.entry] at hl ⊢
  cases e with
  | file b => exact ⟨b, rfl⟩
  | dir => exact absurd rfl h.ne_dir
  | link target => exact absurd rfl (hl target)

end Moves

/-- A file or a link is moved, unless nothing is there or a directory stands in the way. -/
theorem rename_effect (t : FileTree) (source target : List Name) :
    (rename source target).Ends t (fun _ t' => ∃ s d e, t.Moves source target t' s d e)
      (fun e t' => t' = t ∧ (e = .aborted .nullCharacter ∨ ∃ code, e = .between code source target)) := by
  unfold EStateM.Ends rename
  by_cases hnull : Path.hasNull source || Path.hasNull target
  · simp only [hnull, if_true]
    exact ⟨trivial, .inl trivial⟩
  · simp only [hnull, Bool.false_eq_true, if_false]
    have hnull : Path.hasNull source = false ∧ Path.hasNull target = false := by simpa using hnull
    cases hs : t.spot .entry source with
    | error e => exact ⟨rfl, .inr ⟨e, rfl⟩⟩
    | ok s =>
      cases hd : t.spot .entry target with
      | error e => exact ⟨rfl, .inr ⟨e, rfl⟩⟩
      | ok d =>
        dsimp only
        split
        · next h =>
          split at h
          · cases h
          · cases h
          · cases h
          · next e hdir he hfree =>
            refine ⟨s, d, e, hnull, hs, hd, he, hdir, hfree, ?_⟩
            split at h
            · next hsame =>
              cases h
              exact (if_pos hsame).symm
            · next hsame =>
              cases h
              exact (if_neg hsame).symm
        · next h =>
          split at h
          · cases h
            exact ⟨rfl, .inr ⟨_, rfl⟩⟩
          · cases h
            exact ⟨rfl, .inr ⟨_, rfl⟩⟩
          · cases h
            exact ⟨rfl, .inr ⟨_, rfl⟩⟩
          · split at h
            · cases h
            · cases h

theorem rename_ok {source target : List Name} {d : Spot} {b : ByteArray}
    (hnull : Path.hasNull source = false ∧ Path.hasNull target = false)
    (hs : t.spot .entry source = .ok s) (hb : t.get? s.path = some (.file b))
    (hd : t.spot .entry target = .ok d) (hfree : t.get? d.path ≠ some .dir) :
    ∃ t', rename source target t = .ok () t' := by
  unfold rename
  simp only [hnull.1, hnull.2, Bool.or_false, Bool.false_eq_true, if_false, hs, hd, hb]
  split
  · exact ⟨_, rfl⟩
  · exact ⟨_, rfl⟩

structure Draws (t : FileTree) (names : List Name) (kind : TempKind) (temp : Path) (t' : FileTree)
    (dir : Path) (n : Nat) : Prop where
  hasNull : Path.hasNull names = false
  short : tooLong (names ++ [tempName kind 0]) = false
  locate : ∃ slash, t.locate .content maxLinks .root names = .ok ⟨dir, slash⟩
  get? : t.get? dir = some .dir
  lt : n < tempNames
  fresh : t.get? (dir ++ [tempName kind n]) = none
  temp : temp = names ++ [tempName kind n]
  tree : ∃ bytes, t' = t.put (dir ++ [tempName kind n]) (.file bytes)

theorem makeTemp_effect (t : FileTree) (reserved : List Name) (names : List Name) (kind : TempKind)
    (bytes : ByteArray) :
    (makeTemp reserved names kind bytes).Ends t
      (fun temp t' => ∃ dir n, t.Draws names kind temp t' dir n) (fun _ t' => t' = t) := by
  unfold EStateM.Ends makeTemp
  by_cases hnull : Path.hasNull names
  · rw [if_pos hnull]
  · rw [if_neg hnull]
    by_cases hlong : tooLong (names ++ [tempName kind 0])
    · rw [if_pos hlong]
    · rw [if_neg hlong]
      cases hs : t.locate .content maxLinks .root names with
      | error e => rfl
      | ok s =>
        dsimp only
        cases hd : t.get? s.path with
        | none => rfl
        | some e =>
          cases e with
          | file b => rfl
          | link target => rfl
          | dir =>
            dsimp only
            cases hn : t.freeNumber reserved s.path kind with
            | none => rfl
            | some n =>
              have hfresh := fresh_of_freeNumber hn
              exact ⟨s.path, n, Bool.eq_false_iff.2 hnull, Bool.eq_false_iff.2 hlong, ⟨s.slash, hs⟩, hd,
                hfresh.lt, hfresh.free, rfl, bytes, rfl⟩

end FileTree

end Emend
