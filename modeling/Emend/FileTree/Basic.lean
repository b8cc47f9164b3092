import Emend.Path

namespace Emend

/-- What stands at a path. The target of a link is kept as it was written. -/
inductive Entry
  | file (bytes : ByteArray)
  | dir
  | link (target : Text)

instance : DecidableEq Entry
  | .file a, .file b =>
    match ByteArray.instDecidableEq a b with
    | .isTrue h => .isTrue (congrArg _ h)
    | .isFalse h => .isFalse fun e => h (Entry.file.inj e)
  | .link a, .link b =>
    if h : a = b then .isTrue (congrArg _ h) else .isFalse fun e => h (Entry.link.inj e)
  | .dir, .dir => .isTrue rfl
  | .file _, .dir | .file _, .link _ | .dir, .file _ | .dir, .link _ | .link _, .file _
  | .link _, .dir => .isFalse nofun

/-- A finite map from paths to entries, as a tree: the entry of its own path, and what is below each
name. Of two children of one name the first counts. Entries have no owners, permissions or times, and no two
paths share a file, so that calls fail for none of these and hard links are left out. -/
inductive FileTree
  | node (entry : Option Entry) (children : List (Name × FileTree))

namespace FileTree

def empty : FileTree := node none []

def isEmpty : FileTree → Bool
  | node none [] => true
  | _ => false

def entry : FileTree → Option Entry
  | node e _ => e

def child : FileTree → Name → FileTree
  | node _ ts, n => (ts.lookup n).getD empty

def lookup : FileTree → Path → Option Entry
  | t, [] => t.entry
  | t, n :: p => (t.child n).lookup p

/-- The entry at a path. The root is a directory. -/
def get? (t : FileTree) (p : Path) : Option Entry := if p = [] then some .dir else t.lookup p

def put : FileTree → Path → Entry → FileTree
  | node _ ts, [], e => node (some e) ts
  | node e' ts, n :: p, e => node e' ((n, ((node e' ts).child n).put p e) :: ts.filter (·.1 ≠ n))

/-- Leaves out the entry at a path, but not those below it. -/
def erase : FileTree → Path → FileTree
  | node _ ts, [] => node none ts
  | node e ts, n :: p =>
    let t := ((node e ts).child n).erase p
    let others := ts.filter (·.1 ≠ n)
    node e (if t.isEmpty then others else (n, t) :: others)

def names : FileTree → Path → List Name
  | node _ ts, [] => ts.map (·.1)
  | t, n :: p => (t.child n).names p

mutual

def toList : FileTree → List (Path × Entry)
  | node e ts => (e.toList.map fun e => ([], e)) ++ listChildren ts

def listChildren : List (Name × FileTree) → List (Path × Entry)
  | [] => []
  | c :: ts => listChild c ++ listChildren ts

def listChild : Name × FileTree → List (Path × Entry)
  | (n, t) => t.toList.map fun (p, e) => (n :: p, e)

end

@[simp] theorem get?_nil (t : FileTree) : t.get? [] = some .dir := rfl

@[simp] theorem child_empty (n : Name) : empty.child n = empty := rfl

@[simp] theorem lookup_empty (p : Path) : empty.lookup p = none := by
  induction p with
  | nil => rfl
  | cons n p ih => exact ih

theorem lookup_of_isEmpty {t : FileTree} (h : t.isEmpty) (p : Path) : t.lookup p = none := by
  unfold isEmpty at h
  split at h
  · exact lookup_empty p
  · cases h

theorem lookup_append (t : FileTree) (p q : Path) :
    t.lookup (p ++ q) = (p.foldl child t).lookup q := by
  induction p generalizing t with
  | nil => rfl
  | cons n p ih => exact ih (t.child n)

theorem child_cons (e : Option Entry) (ts : List (Name × FileTree)) (t : FileTree) (n m : Name) :
    (node e ((n, t) :: ts)).child m = if m = n then t else (node e ts).child m := by
  simp only [child, List.lookup_cons]
  by_cases h : m = n
  · simp [h]
  · simp [h, beq_eq_false_iff_ne.2 h]

theorem child_filter (e : Option Entry) (ts : List (Name × FileTree)) (n m : Name) :
    (node e (ts.filter (·.1 ≠ n))).child m = if m = n then empty else (node e ts).child m := by
  induction ts with
  | nil => simp [child]
  | cons c ts ih =>
    obtain ⟨k, t⟩ := c
    by_cases hk : k = n
    · subst hk
      rw [List.filter_cons_of_neg (by simp), ih, child_cons]
      by_cases hm : m = k
      · simp [hm]
      · simp [hm]
    · rw [List.filter_cons_of_pos (by simp [hk]), child_cons, child_cons, ih]
      by_cases hm : m = k
      · subst hm
        simp [hk]
      · simp [hm]

theorem lookup_put (t : FileTree) (p : Path) (e : Entry) (q : Path) :
    (t.put p e).lookup q = if q = p then some e else t.lookup q := by
  induction p generalizing t q with
  | nil =>
    obtain ⟨e', ts⟩ := t
    cases q <;> simp [put, lookup, entry, child]
  | cons n p ih =>
    obtain ⟨e', ts⟩ := t
    cases q with
    | nil => simp [put, lookup, entry]
    | cons m q =>
      rw [put, lookup, lookup, child_cons, child_filter]
      by_cases h : m = n
      · subst h
        rw [if_pos rfl, ih]
        simp
      · simp [h]

theorem lookup_erase (t : FileTree) (p q : Path) :
    (t.erase p).lookup q = if q = p then none else t.lookup q := by
  induction p generalizing t q with
  | nil =>
    obtain ⟨e', ts⟩ := t
    cases q <;> simp [erase, lookup, entry, child]
  | cons n p ih =>
    obtain ⟨e, ts⟩ := t
    cases q with
    | nil => simp [erase, lookup, entry]
    | cons m q =>
      have ih := ih ((node e ts).child n) q
      rw [erase, lookup, lookup]
      by_cases h : m = n
      · subst h
        split
        · next he =>
          rw [lookup_of_isEmpty he] at ih
          rw [child_filter, if_pos rfl, lookup_empty]
          simpa using ih
        · rw [child_cons, if_pos rfl, ih]
          simp
      · split
        · rw [child_filter, if_neg h]
          simp [h]
        · rw [child_cons, child_filter]
          simp [h]

theorem get?_put (t : FileTree) {p : Path} (hp : p ≠ []) (e : Entry) (q : Path) :
    (t.put p e).get? q = if q = p then some e else t.get? q := by
  by_cases hq : q = []
  · subst hq
    simp [hp.symm]
  · simp only [get?, if_neg hq]
    exact lookup_put t p e q

theorem get?_erase (t : FileTree) {p : Path} (hp : p ≠ []) (q : Path) :
    (t.erase p).get? q = if q = p then none else t.get? q := by
  by_cases hq : q = []
  · subst hq
    simp [hp.symm]
  · simp only [get?, if_neg hq]
    exact lookup_erase t p q

end FileTree

end Emend
