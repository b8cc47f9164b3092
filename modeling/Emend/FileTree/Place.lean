import Emend.FileTree.Basic

namespace Emend

/-- The tree that the last of some names leads to, which comes first. -/
def FileTree.nearest (t : FileTree) : List (Name × FileTree) → FileTree
  | [] => t
  | (_, s) :: _ => s

/-- Each of the names leads to the tree beside it, from the one behind it on. -/
def FileTree.Leads (t : FileTree) : List (Name × FileTree) → Prop
  | [] => True
  | (n, s) :: up => s = (t.nearest up).child n ∧ t.Leads up

/-- A path with the trees that its names lead to, so that a step to a name or back up takes no search from the
root. A place is its path, as `Place.ext` says. -/
structure Place (t : FileTree) where
  /-- The names with the trees they lead to, the last name first. -/
  up : List (Name × FileTree)
  leads : t.Leads up

namespace Place

variable {t : FileTree}

def root : Place t := ⟨[], trivial⟩

def path (p : Place t) : Path := (p.up.map (·.1)).reverse

def tree (p : Place t) : FileTree := t.nearest p.up

def child (p : Place t) (n : Name) : Place t := ⟨(n, p.tree.child n) :: p.up, rfl, p.leads⟩

/-- The place one name up, which for the root is the root. -/
def parent : Place t → Place t
  | ⟨[], _⟩ => root
  | ⟨_ :: up, h⟩ => ⟨up, h.2⟩

def ofPath (t : FileTree) (p : Path) : Place t := p.foldl child root

def entry (p : Place t) : Option Entry := p.tree.entry

@[simp] theorem path_root : (root : Place t).path = [] := rfl

@[simp] theorem path_child (p : Place t) (n : Name) : (p.child n).path = p.path ++ [n] := by
  simp [path, child]

@[simp] theorem path_parent (p : Place t) : p.parent.path = p.path.dropLast := by
  obtain ⟨up, h⟩ := p
  cases up <;> simp [path, parent, root]

@[simp] theorem path_ofPath (t : FileTree) (p : Path) : (ofPath t p).path = p := by
  suffices ∀ q : Place t, (p.foldl child q).path = q.path ++ p from this root
  induction p with
  | nil => simp
  | cons n p ih => simp [ih]

theorem tree_eq (p : Place t) : p.tree = p.path.foldl FileTree.child t := by
  obtain ⟨up, h⟩ := p
  induction up with
  | nil => rfl
  | cons e up ih =>
    obtain ⟨n, s⟩ := e
    have := ih h.2
    simp only [tree, path, List.map_cons, List.reverse_cons, List.foldl_append] at this ⊢
    rw [← this]
    exact h.1

@[simp] theorem entry_eq (p : Place t) : p.entry = t.lookup p.path := by
  have := t.lookup_append p.path []
  rw [List.append_nil, ← tree_eq] at this
  exact this.symm

@[ext] theorem ext {p q : Place t} (h : p.path = q.path) : p = q := by
  obtain ⟨up, hp⟩ := p
  obtain ⟨up', hq⟩ := q
  replace h : up.map (·.1) = up'.map (·.1) := List.reverse_inj.1 h
  suffices up = up' by
    subst this
    rfl
  induction up generalizing up' with
  | nil => exact (List.map_eq_nil_iff.1 h.symm).symm
  | cons e up ih =>
    obtain _ | ⟨e', up'⟩ := up'
    · cases h
    · obtain ⟨hn, h⟩ := List.cons.inj h
      have he := ih hp.2 up' hq.2 h
      subst he
      have hn : e.1 = e'.1 := hn
      exact congrArg (· :: up) (Prod.ext hn (by rw [hp.1, hq.1, hn]))

@[simp] theorem ofPath_path (p : Place t) : ofPath t p.path = p := ext (path_ofPath t p.path)

end Place

end Emend
