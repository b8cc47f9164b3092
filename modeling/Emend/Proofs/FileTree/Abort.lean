import Emend.Proofs.FileTree.Effect

namespace Emend

namespace Path

theorem hasNull_getLastD {p : List Name} (h : hasNull p = false) : hasNull [p.getLastD []] = false := by
  rcases List.eq_nil_or_concat p with rfl | ⟨p, n, rfl⟩
  · rfl
  · rw [List.concat_eq_append, hasNull_append, Bool.or_eq_false_iff] at h
    simpa using h.2

end Path

/-- If the call was given up at all, that was for a null character on the names. -/
def CallError.OnlyNull (names : List Name) (e : CallError) : Prop :=
  ∀ a, e = .aborted a → a = .nullCharacter ∧ Path.hasNull names = true

namespace CallError

variable {names names' : List Name} {e : CallError}

theorem onlyNull_null (h : Path.hasNull names = true) : OnlyNull names (.aborted .nullCharacter) := by
  intro a ha
  cases ha
  exact ⟨rfl, h⟩

theorem OnlyNull.mono (h : e.OnlyNull names)
    (hnull : Path.hasNull names' = false → Path.hasNull names = false) : e.OnlyNull names' := by
  intro a ha
  obtain ⟨rfl, hn⟩ := h a ha
  refine ⟨rfl, Bool.not_eq_false _ ▸ fun hn' => ?_⟩
  rw [hnull hn'] at hn
  cases hn

end CallError

namespace FileTree

open EStateM CallError

variable {t : FileTree} {names : List Name}

theorem callSpot_abort {last : LastName} {e : CallError} (h : t.callSpot last names = .error e) :
    e.OnlyNull names := by
  unfold callSpot at h
  split at h
  · next hnull =>
    cases h
    exact onlyNull_null hnull
  · split at h
    · cases h
    · cases h
      exact nofun

theorem makeDir_abort (t : FileTree) (names : List Name) :
    (makeDir names).Ends t (fun _ _ => True) (fun e _ => e.OnlyNull names) := by
  unfold EStateM.Ends makeDir
  cases hs : t.callSpot .entry names with
  | error e => exact callSpot_abort hs
  | ok s =>
    cases he : t.get? s.path with
    | none => simp [he]
    | some e =>
      simp only [he, Option.isSome_some, if_true]
      exact nofun

theorem ensureDir_abort (t : FileTree) (names : List Name) :
    (ensureDir names).Ends t (fun _ _ => True) (fun e _ => e.OnlyNull names) := by
  have hmake := makeDir_abort t names
  unfold EStateM.Ends ensureDir
  cases hm : makeDir names t with
  | ok u t' => trivial
  | error e t' =>
    by_cases hd : t'.hasDir names
    · simp only [hd, if_true]
    · simp only [hd, Bool.false_eq_true, if_false]
      exact hmake.of_error hm

theorem makeLevels_abort (p : Path) (t : FileTree) :
    (makeLevels p).Ends t (fun _ _ => True) (fun e _ => e.OnlyNull p) := by
  -- The levels above the path come first, so the induction is on its length.
  induction hn : p.length generalizing p t with
  | zero =>
    obtain rfl := List.length_eq_zero_iff.1 hn
    have he : makeLevels [] t = .ok () t := by rw [makeLevels, dif_pos rfl]
    rw [EStateM.Ends, he]
    trivial
  | succ n ih =>
    have hne : p ≠ [] := List.ne_nil_of_length_eq_add_one hn
    have hup := ih p.parent t (by rw [Path.parent, List.length_dropLast, hn, Nat.add_sub_cancel])
    have hlast {t' : FileTree} (he : makeLevels p t = ensureDir p t') :
        (makeLevels p).Ends t (fun _ _ => True) (fun e _ => e.OnlyNull p) :=
      (ends_congr he).2 (ensureDir_abort t' p)
    by_cases hhas : t.has p.parent
    · exact hlast (by rw [makeLevels, dif_neg hne, if_pos hhas])
    · have heq := makeLevels.eq_def p t
      rw [dif_neg hne, if_neg hhas] at heq
      split at heq
      · exact hlast heq
      · exact hlast heq
      · next e t' _ hm =>
        rw [EStateM.Ends, heq]
        exact (hup.of_error hm).mono (Path.hasNull_mono (Path.parent_isPrefix p))

theorem makeDirs_abort (p : Path) (t : FileTree) :
    (makeDirs p).Ends t (fun _ _ => True)
      (fun e _ => e = .aborted .tooDeep ∨ e.OnlyNull p) := by
  by_cases hdeep : maxDepth < t.levels p
  · have he : makeDirs p t = .error (.aborted .tooDeep) t := if_pos hdeep
    rw [EStateM.Ends, he]
    exact .inl rfl
  · have he : makeDirs p t = makeLevels p t := if_neg hdeep
    exact ((ends_congr he).2 (makeLevels_abort p t)).imp_error fun _ _ h => .inr h

theorem readFile_abort (t : FileTree) (names : List Name) :
    (readFile names).Ends t (fun _ _ => True) (fun e _ => e.OnlyNull names) := by
  unfold EStateM.Ends readFile
  by_cases hnull : Path.hasNull names
  · simp only [hnull, if_true]
    exact onlyNull_null hnull
  · simp only [hnull, Bool.false_eq_true, if_false]
    cases hf : t.find names with
    | error e => exact nofun
    | ok e =>
      cases e with
      | file b => trivial
      | dir => exact nofun
      | link target => exact nofun

theorem writeFile_abort (t : FileTree) (names : List Name) (bytes : ByteArray) :
    (writeFile names bytes).Ends t (fun _ _ => True) (fun e _ => e.OnlyNull names) := by
  unfold EStateM.Ends writeFile
  cases hs : t.callSpot .newFile names with
  | error e => exact callSpot_abort hs
  | ok s =>
    by_cases hdir : t.get? s.path = some .dir
    · simp only [hdir, if_true]
      exact nofun
    · simp only [hdir, if_false]

theorem removeFile_abort (t : FileTree) (names : List Name) :
    (removeFile names).Ends t (fun _ _ => True) (fun e _ => e.OnlyNull names) := by
  unfold EStateM.Ends removeFile
  cases hs : t.callSpot .entry names with
  | error e => exact callSpot_abort hs
  | ok s =>
    dsimp only
    cases he : t.get? s.path with
    | none => exact nofun
    | some e =>
      cases e with
      | dir => exact nofun
      | file b => trivial
      | link target => trivial

theorem rename_abort (t : FileTree) (source target : List Name) :
    (rename source target).Ends t (fun _ _ => True) (fun e _ => e.OnlyNull (source ++ target)) := by
  unfold EStateM.Ends
  split
  · trivial
  · next e t' h =>
    unfold rename at h
    split at h
    · next hnull =>
      cases h
      exact onlyNull_null (Path.hasNull_append.trans hnull)
    · split at h
      · cases h
        exact nofun
      · cases h
        exact nofun
      · split at h
        · cases h
          exact nofun
        · cases h
          exact nofun
        · cases h
          exact nofun
        · split at h
          · cases h
          · cases h

theorem hasNull_copyTarget {source target : List Name}
    (h : Path.hasNull (source ++ target) = false) : Path.hasNull (t.copyTarget source target) = false := by
  rw [Path.hasNull_append, Bool.or_eq_false_iff] at h
  obtain ⟨hsource, htarget⟩ := h
  unfold copyTarget
  split
  · rw [Path.hasNull_append, Bool.or_eq_false_iff]
    refine ⟨?_, Path.hasNull_getLastD hsource⟩
    split
    · exact Path.hasNull_mono (List.dropLast_prefix target) htarget
    · exact htarget
  · exact htarget

theorem copyFile_abort (t : FileTree) (source target : List Name) :
    (copyFile source target).Ends t (fun _ _ => True) (fun e _ => e.OnlyNull (source ++ target)) := by
  unfold EStateM.Ends
  split
  · trivial
  · next e t' h =>
    have hsource : Path.hasNull (source ++ target) = false → Path.hasNull source = false :=
      Path.hasNull_mono (List.prefix_append source target)
    unfold copyFile at h
    dsimp only at h
    split at h
    · next hnull =>
      cases h
      rw [← Path.hasNull_append] at hnull
      refine (onlyNull_null hnull).mono fun hboth => ?_
      rw [Path.hasNull_append, hsource hboth, hasNull_copyTarget hboth]
      rfl
    · split at h
      · cases h
        exact nofun
      · split at h
        · next hr =>
          cases h
          exact ((readFile_abort t source).of_error hr).mono hsource
        · split at h
          · split at h
            · cases h
              exact nofun
            · cases h
              exact nofun
          · exact ((writeFile_abort _ _ _).of_error h).mono hasNull_copyTarget

theorem makeTemp_abort (t : FileTree) (reserved : List Name) (dir : Path) (kind : TempKind)
    (bytes : ByteArray) :
    (makeTemp reserved dir kind bytes).Ends t (fun _ _ => True) (fun e _ => e.OnlyNull dir) := by
  unfold EStateM.Ends
  split
  · trivial
  · next e t' h =>
    unfold makeTemp at h
    dsimp only at h
    split at h
    · next hnull =>
      cases h
      exact onlyNull_null hnull
    · split at h
      · cases h
        rintro _ ⟨⟩
      · split at h
        · cases h
          rintro _ ⟨⟩
        · split at h
          · cases h
            rintro _ ⟨⟩
          · split at h
            · cases h
              rintro _ ⟨⟩
            · cases h
          · cases h
            rintro _ ⟨⟩

theorem Draws.hasNull_temp {kind : TempKind} {temp : Path} {t' : FileTree} {dir : Path} {n : Nat}
    (h : t.Draws names kind temp t' dir n) : Path.hasNull temp = false := by
  rw [h.temp, Path.hasNull_append, h.hasNull, hasNull_tempName]
  rfl

end FileTree

end Emend
