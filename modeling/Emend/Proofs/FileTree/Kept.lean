import Emend.Proofs.FileTree.Opening

namespace Emend

namespace FileTree

variable {t₀ t t' : FileTree} {p q : Path} {b : ByteArray}

/-- At the path there is what was there. Where there was nothing, there may be a directory. -/
def GrownAt (t t' : FileTree) (p : Path) : Prop :=
  t'.get? p = t.get? p ∨ t.get? p = none ∧ t'.get? p = some .dir

theorem GrowsTo.grownAt (h : t.GrowsTo q t') (p : Path) : t.GrownAt t' p := (h p).imp_right And.right

/-- At the path there is what was there. Where there was nothing, there may be a directory or a
temporary file. -/
def KeptAt (t₀ t : FileTree) (p : Path) : Prop :=
  t.get? p = t₀.get? p ∨
    t₀.get? p = none ∧ (t.get? p = some .dir ∨ IsTemp p ∧ ∃ b, t.get? p = some (.file b))

namespace KeptAt

theorem congr (h : t₀.KeptAt t p) (he : t'.get? p = t.get? p) : t₀.KeptAt t' p := by
  unfold KeptAt
  rw [he]
  exact h

theorem get?_eq_some {e : Entry} (h : t₀.KeptAt t p) (he : t₀.get? p = some e) :
    t.get? p = some e := by
  obtain h | ⟨hn, -⟩ := h
  · rw [h, he]
  · rw [hn] at he
    cases he

theorem get?_eq_none (h : t₀.KeptAt t p) (hn : t.get? p = none) : t₀.get? p = none := by
  cases he : t₀.get? p with
  | none => rfl
  | some e =>
    rw [h.get?_eq_some he] at hn
    cases hn

theorem eq_some_or {e : Entry} (h : t₀.KeptAt t p) (he : t.get? p = some e) :
    t₀.get? p = some e ∨ e = .dir ∨ IsTemp p ∧ ∃ b, e = .file b := by
  obtain h | ⟨-, hd | ⟨ht, b, hb⟩⟩ := h
  · exact .inl (h ▸ he)
  · rw [he] at hd
    exact .inr (.inl (Option.some.inj hd))
  · rw [he] at hb
    exact .inr (.inr ⟨ht, b, Option.some.inj hb⟩)

theorem grown (h : t₀.KeptAt t p) (hg : t.GrownAt t' p) : t₀.KeptAt t' p := by
  obtain he | ⟨hn, hd⟩ := hg
  · exact h.congr he
  · exact .inr ⟨h.get?_eq_none hn, .inl hd⟩

theorem grows (h : t₀.KeptAt t p) (hg : t.GrowsTo q t') : t₀.KeptAt t' p := h.grown (hg.grownAt p)

end KeptAt

theorem Fresh.kept {reserved : List Name} {dir : Path} {kind : TempKind} {n : Nat}
    (h : t.Fresh reserved dir kind n) (hkept : t.KeptAt t' (dir ++ [tempName kind n]))
    (hdir : t'.get? (dir ++ [tempName kind n]) ≠ some .dir)
    (hfile : ∀ b, t'.get? (dir ++ [tempName kind n]) ≠ some (.file b)) : t'.Fresh reserved dir kind n := by
  obtain he | ⟨-, hd | ⟨-, b, hb⟩⟩ := hkept
  · exact ⟨h.lt, h.unreserved, he.trans h.free⟩
  · exact absurd hd hdir
  · exact absurd hb (hfile b)

def SameFile (t t' : FileTree) (p : Path) : Prop :=
  ∀ b, t'.get? p = some (.file b) ↔ t.get? p = some (.file b)

namespace SameFile

theorem of_eq (h : t'.get? p = t.get? p) : t.SameFile t' p := fun b => by rw [h]

theorem trans (h : t₀.SameFile t p) (h' : t.SameFile t' p) : t₀.SameFile t' p :=
  fun b => (h' b).trans (h b)

end SameFile

theorem GrownAt.sameFile (h : t.GrownAt t' p) : t.SameFile t' p := by
  obtain he | ⟨hn, hd⟩ := h
  · exact .of_eq he
  · intro b
    simp [hn, hd]

theorem KeptAt.sameFile_or (h : t.KeptAt t' p) : t.SameFile t' p ∨ IsTemp p ∧ t.get? p = none := by
  obtain he | ⟨hn, hd | ⟨htemp, -⟩⟩ := h
  · exact .inl (.of_eq he)
  · exact .inl (GrownAt.sameFile (.inr ⟨hn, hd⟩))
  · exact .inr ⟨htemp, hn⟩

end FileTree

end Emend
