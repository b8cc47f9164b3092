import Emend.Proofs.Commit.Step

namespace Emend

open FileTree

namespace Target

variable {t : FileTree} {kind : TempKind} {dir : Path} {cs cs' : List Target} {c : Target}
  {reserved reserved' : List Name}

/-- A temporary file of the kind is made for the change, beside its place. -/
def Needs (t : FileTree) (c : Target) : TempKind → Prop
  | .staged => c.Writes
  | .setAside => c.action = .delete ∧ c.change.former = none ∧ t.has c.dest = true

instance (t : FileTree) (c : Target) : (kind : TempKind) → Decidable (c.Needs t kind)
  | .staged => inferInstanceAs (Decidable c.Writes)
  | .setAside => inferInstanceAs (Decidable (_ ∧ _ ∧ _))

theorem Needs.not_writes (h : c.Needs t .setAside) : ¬c.Writes := fun hw => hw h.1

def wanted (t : FileTree) (kind : TempKind) (dir : Path) (cs : List Target) : Nat :=
  cs.countP fun c => c.Needs t kind ∧ c.dest.parent = dir

theorem wanted_concat : wanted t kind dir (cs ++ [c]) =
    wanted t kind dir cs + if c.Needs t kind ∧ c.dest.parent = dir then 1 else 0 := by
  rw [wanted, List.countP_append, List.countP_singleton]
  simp only [decide_eq_true_eq]
  rfl

theorem wanted_le_length : wanted t kind dir cs ≤ cs.length := List.countP_le_length

/-- There are names for all temporary files that the changes need. -/
def Supplied (t : FileTree) (reserved : List Name) (cs : List Target) : Prop :=
  ∀ kind dir, t.Spares reserved dir kind (wanted t kind dir cs)

theorem Supplied.perm (h : Supplied t reserved cs) (hcs : cs.Perm cs')
    (hreserved : ∀ n, n ∈ reserved' → n ∈ reserved) : Supplied t reserved' cs' := by
  intro kind dir
  obtain ⟨l, hnodup, hlen, hl⟩ := h kind dir
  refine ⟨l, hnodup, ?_, fun n hn => ?_⟩
  · rwa [wanted, ← hcs.countP_eq]
  · obtain ⟨hlt, hname, hfree⟩ := hl n hn
    exact ⟨hlt, fun hr => hname (hreserved _ hr), hfree⟩

theorem supplied_of_names
    (h : ∀ dir, (t.names dir).length + reserved.length + cs.length ≤ tempNames) :
    Supplied t reserved cs := by
  intro kind dir
  have hle := h dir
  have hwanted : wanted t kind dir cs ≤ cs.length := wanted_le_length
  exact spares_of_names (by omega)

end Target

namespace Workspace

variable {t : FileTree} {kind : TempKind} {dir : Path} {done rest : List Target} {c : Target} {n : Nat}
  {w w' : Workspace}

/-- Of the temporary files that could be made at the start those are there now which the changes in
`done` need. -/
def Drew (t : FileTree) (kind : TempKind) (done : List Target) (w : Workspace) : Prop :=
  ∀ dir, ∃ used : List Nat, used.Nodup ∧ used.length = Target.wanted t kind dir done ∧
    ∀ n, n ∈ used ↔ t.Fresh w.reserved dir kind n ∧ ∃ b, w.tree.get? (dir ++ [tempName kind n]) = some (.file b)

theorem drew_nil (h : w.tree = t) : Drew t kind [] w := by
  refine fun dir => ⟨[], List.nodup_nil, rfl, fun n => iff_of_false List.not_mem_nil ?_⟩
  rintro ⟨hfresh, b, hb⟩
  rw [h, hfresh.free] at hb
  cases hb

namespace Drew

variable (h : Drew t kind done w)
include h

theorem congr (hreserved : w'.reserved = w.reserved) (hsame : ∀ dir n, t.Fresh w.reserved dir kind n →
    w.tree.SameFile w'.tree (dir ++ [tempName kind n])) : Drew t kind done w' := by
  intro dir
  obtain ⟨used, hnodup, hlen, hused⟩ := h dir
  refine ⟨used, hnodup, hlen, fun n => (hused n).trans ?_⟩
  rw [hreserved]
  exact and_congr_right fun hfresh => exists_congr fun b => (hsame dir n hfresh b).symm

theorem skip (hc : ¬c.Needs t kind) : Drew t kind (done ++ [c]) w := by
  intro dir
  rw [Target.wanted_concat, if_neg fun hneeds => hc hneeds.1]
  exact h dir

theorem draw (hc : c.Needs t kind) (hfresh : t.Fresh w.reserved c.dest.parent kind n)
    (hfree : w.tree.get? (c.dest.parent ++ [tempName kind n]) = none) (hreserved : w'.reserved = w.reserved)
    (hnew : ∃ b, w'.tree.get? (c.dest.parent ++ [tempName kind n]) = some (.file b))
    (hsame : ∀ dir m, t.Fresh w.reserved dir kind m →
      dir ++ [tempName kind m] ≠ c.dest.parent ++ [tempName kind n] →
        w.tree.SameFile w'.tree (dir ++ [tempName kind m])) : Drew t kind (done ++ [c]) w' := by
  intro dir
  obtain ⟨used, hnodup, hlen, hused⟩ := h dir
  rw [Target.wanted_concat, hreserved]
  by_cases hdir : c.dest.parent = dir
  · subst hdir
    have hnot : n ∉ used := by
      intro hn
      obtain ⟨-, b, hb⟩ := (hused n).1 hn
      rw [hfree] at hb
      cases hb
    refine ⟨n :: used, List.nodup_cons.2 ⟨hnot, hnodup⟩, ?_, fun m => ?_⟩
    · rw [if_pos ⟨hc, rfl⟩, List.length_cons, hlen]
    · by_cases hm : m = n
      · subst hm
        exact iff_of_true List.mem_cons_self ⟨hfresh, hnew⟩
      · have hne : c.dest.parent ++ [tempName kind m] ≠ c.dest.parent ++ [tempName kind n] := fun he =>
          hm (tempName_injective (List.singleton_inj.1 (List.append_cancel_left he)))
        rw [List.mem_cons, or_iff_right hm, hused m]
        exact and_congr_right fun hf => exists_congr fun b => (hsame _ m hf hne b).symm
  · have hne (m : Nat) : dir ++ [tempName kind m] ≠ c.dest.parent ++ [tempName kind n] :=
      fun he => hdir (List.append_inj' he rfl).1.symm
    refine ⟨used, hnodup, ?_, fun m => ?_⟩
    · rw [if_neg fun hneeds => hdir hneeds.2, hlen, Nat.add_zero]
    · rw [hused m]
      exact and_congr_right fun hf => exists_congr fun b => (hsame dir m hf (hne m) b).symm

theorem spares (dir : Path) : t.Spares w.reserved dir kind (Target.wanted t kind dir done) := by
  obtain ⟨used, hnodup, hlen, hused⟩ := h dir
  exact ⟨used, hnodup, Nat.le_of_eq hlen.symm, fun n hn => ((hused n).1 hn).1⟩

/-- Where there are names for all changes there is one left for each that is to come, if nothing but
temporary files has been added under these names. -/
theorem exists_fresh (hsupplied : Target.Supplied t w.reserved (done ++ c :: rest)) (hc : c.Needs t kind)
    (hkept : ∀ n, t.Fresh w.reserved c.dest.parent kind n →
      t.KeptAt w.tree (c.dest.parent ++ [tempName kind n]) ∧
        w.tree.get? (c.dest.parent ++ [tempName kind n]) ≠ some .dir) :
    ∃ n, w.tree.Fresh w.reserved c.dest.parent kind n := by
  obtain ⟨used, -, hlen, hused⟩ := h c.dest.parent
  obtain ⟨l, hnodup, hl, hfresh⟩ := hsupplied kind c.dest.parent
  have hmore : used.length < l.length := by
    have hself : Target.wanted t kind c.dest.parent (done ++ [c]) = used.length + 1 := by
      rw [Target.wanted_concat, if_pos ⟨hc, rfl⟩, hlen]
    have hsub : (done ++ [c]).Sublist (done ++ c :: rest) :=
      List.Sublist.append_left (List.singleton_sublist.2 List.mem_cons_self) done
    have hle : Target.wanted t kind c.dest.parent (done ++ [c]) ≤ l.length := Nat.le_trans hsub.countP_le hl
    omega
  have hnot : ¬l ⊆ used := fun hsub => Nat.not_le.2 hmore (hnodup.length_le_of_subset hsub)
  obtain ⟨n, hn, hunused⟩ : ∃ n ∈ l, n ∉ used := by simpa [List.subset_def] using hnot
  obtain ⟨hkeptAt, hdir⟩ := hkept n (hfresh n hn)
  exact ⟨n, (hfresh n hn).kept hkeptAt hdir fun b hb => hunused ((hused n).2 ⟨hfresh n hn, b, hb⟩)⟩

end Drew

end Workspace

end Emend
