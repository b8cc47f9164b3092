import Emend.Path

namespace Emend

namespace Path

/-- Each name on the path is that of an entry. -/
def Plain (p : Path) : Prop := ∀ n ∈ p, n ≠ [] ∧ n ≠ ['.'] ∧ n ≠ ['.', '.']

@[simp] theorem plain_nil : Plain [] := nofun

theorem plain_cons {n : Name} {p : Path} :
    Plain (n :: p) ↔ (n ≠ [] ∧ n ≠ ['.'] ∧ n ≠ ['.', '.']) ∧ Plain p := List.forall_mem_cons

theorem plain_append {p q : Path} : Plain (p ++ q) ↔ Plain p ∧ Plain q := List.forall_mem_append

namespace Plain

variable {p q : Path}

theorem mono (h : p <+: q) (hq : Plain q) : Plain p := fun n hn => hq n (h.mem hn)

theorem parent (h : Plain p) : Plain p.parent := fun n hn => h n (List.dropLast_subset p hn)

theorem step (h : Plain p) (n : Name) : Plain (p.step n) := by
  unfold Path.step
  split
  · exact h
  · next hn =>
    rw [not_or] at hn
    split
    · exact h.parent
    · next hup => exact plain_append.2 ⟨h, plain_cons.2 ⟨⟨hn.1, hn.2, hup⟩, plain_nil⟩⟩

theorem walk (h : Plain p) (ns : List Name) : Plain (p.walk ns) := by
  induction ns generalizing p with
  | nil => exact h
  | cons n ns ih => exact ih (h.step n)

theorem walk_eq (h : Plain q) (p : Path) : p.walk q = p ++ q := by
  induction q generalizing p with
  | nil => simp
  | cons n q ih =>
    obtain ⟨⟨hn, hdot, hup⟩, hq⟩ := plain_cons.1 h
    have hstep : p.step n = p ++ [n] := by simp [Path.step, hn, hdot, hup]
    rw [walk_cons, hstep, ih hq, List.append_assoc, List.singleton_append]

end Plain

theorem walk_filter (p : Path) (ns : List Name) : p.walk (ns.filter (· ≠ [])) = p.walk ns := by
  induction ns generalizing p with
  | nil => rfl
  | cons n ns ih =>
    by_cases hn : n = []
    · rw [List.filter_cons_of_neg (by simp [hn]), ih, walk_cons, hn]
      rfl
    · rw [List.filter_cons_of_pos (by simp [hn]), walk_cons, walk_cons, ih]

theorem Plain.resolve? {base p : Path} {t : Text} (hb : Plain base)
    (h : Path.resolve? base t = some p) : Plain p := by
  obtain ⟨-, rfl⟩ := resolve?_eq_some.1 h
  exact hb.walk _

theorem Plain.join {p : RealPath} (h : Plain p.path) (ns : List Name) : Plain (p.join ns).path := by
  unfold RealPath.join
  split
  · exact plain_nil.walk _
  · exact plain_nil.walk _
  · exact h.walk _

theorem relative_append (dir : Path) {below : Path} (hne : below ≠ []) :
    relative dir (dir ++ below) = ['/'].intercalate below := by
  rw [relative, if_neg (by simpa using hne), List.drop_left]

section Names

variable {P : Name → Prop} {ns : List Name}

theorem forall_mem_walk {p : Path} (hp : ∀ n ∈ p, P n) (hns : ∀ n ∈ ns, P n) :
    ∀ n ∈ p.walk ns, P n := by
  induction ns generalizing p with
  | nil => exact hp
  | cons m ns ih =>
    obtain ⟨hm, hns⟩ := List.forall_mem_cons.1 hns
    refine ih ?_ hns
    unfold Path.step
    split
    · exact hp
    · split
      · exact fun n hn => hp n (List.dropLast_subset p hn)
      · exact List.forall_mem_append.2 ⟨hp, List.forall_mem_singleton.2 hm⟩

theorem forall_mem_join {p : RealPath} (hp : ∀ n ∈ p.path, P n) (hns : ∀ n ∈ ns, P n) :
    ∀ n ∈ (p.join ns).path, P n := by
  unfold RealPath.join
  split
  · exact forall_mem_walk (by simp) hns
  · exact forall_mem_walk (by simp) hns
  · exact forall_mem_walk hp hns

end Names

end Path

end Emend
