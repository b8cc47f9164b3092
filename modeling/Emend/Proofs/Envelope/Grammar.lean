import Emend.Proofs.Envelope
import Emend.Proofs.Text.Blank

namespace Emend

namespace Header

variable {h h' : Header} {path path' : Text} {l : Line} {body body' rest rest' : List Line}

theorem lead_eq_cons (h : Header) : ∃ t, h.lead = '*' :: t := by
  cases h <;> exact ⟨_, rfl⟩

theorem trim_lead_ne_nil (h : Header) (path : Text) : (h.lead ++ path).trim ≠ [] := by
  obtain ⟨t, ht⟩ := h.lead_eq_cons
  rw [ht]
  have hstar : isBlank '*' = false := by decide
  exact Text.trim_cons_ne_nil hstar (t ++ path)

theorem after?_lead (hne : h ≠ h') : Text.after? h.lead (h'.lead ++ path) = none := by
  cases h <;> cases h' <;> first | exact absurd rfl hne | rfl

theorem read?_lead (h : Header) (path : Text) : read? (h.lead ++ path) = some (h, path.trim) := by
  cases h <;> simp [read?, after?_lead]

theorem read?_eq_some (hl : read? l = some (h, path)) : ∃ raw, l = h.lead ++ raw ∧ path = raw.trim := by
  obtain ⟨h', -, hh'⟩ := List.exists_of_findSome?_eq_some hl
  obtain ⟨raw, hraw, he⟩ := Option.map_eq_some_iff.1 hh'
  cases he
  exact ⟨raw, Text.after?_eq_some.1 hraw, rfl⟩

theorem lead_append_inj (he : h.lead ++ path = h'.lead ++ path') : h = h' ∧ path = path' := by
  have hh : h = h' := by
    by_contra hne
    have hnone : Text.after? h.lead (h'.lead ++ path') = none := after?_lead hne
    rw [← he, Text.after?_append] at hnone
    cases hnone
  subst hh
  exact ⟨rfl, List.append_cancel_left he⟩

/-- The lines of a body are all those up to one that ends it. -/
structure Run (body rest : List Line) : Prop where
  inside : ∀ l ∈ body, isBody l = true
  boundary : ∀ l ∈ rest.head?, isBody l = false

theorem Run.takeWhile (hrun : Run body rest) : (body ++ rest).takeWhile isBody = body := by
  rw [List.takeWhile_append_of_pos hrun.inside]
  cases rest with
  | nil => simp
  | cons l rest => simp [hrun.boundary l rfl]

theorem Run.dropWhile (hrun : Run body rest) : (body ++ rest).dropWhile isBody = rest := by
  rw [List.dropWhile_append_of_pos hrun.inside]
  cases rest with
  | nil => rfl
  | cons l rest => simp [hrun.boundary l rfl]

theorem run_takeWhile (ls : List Line) : Run (ls.takeWhile isBody) (ls.dropWhile isBody) where
  inside _ hl := (mem_of_mem_takeWhile hl).2
  boundary l hl := by
    obtain ⟨e, he, hend⟩ := head?_dropWhile_isBody (List.ne_nil_of_mem (List.mem_of_mem_head? hl))
    cases he.symm.trans hl
    exact hend

theorem Run.inj (hrun : Run body rest) (hrun' : Run body' rest') (he : body ++ rest = body' ++ rest') :
    body = body' ∧ rest = rest' := by
  have htake := hrun.takeWhile
  have hdrop := hrun.dropWhile
  rw [he] at htake hdrop
  exact ⟨htake.symm.trans hrun'.takeWhile, hdrop.symm.trans hrun'.dropWhile⟩

theorem readMove_move (dest : Text) (ls : List Line) :
    readMove ((moveLead ++ dest) :: ls) = (if dest.trim = [] then none else some dest.trim, ls) := by
  simp [readMove]

theorem readMove_none {ls : List Line} (hls : ∀ l ∈ ls.head?, ¬moveLead <+: l) :
    readMove ls = (none, ls) := by
  cases ls with
  | nil => rfl
  | cons l ls =>
    have hnone : Text.after? moveLead l = none := by
      simpa [Text.after?, List.isPrefixOf_iff_prefix] using hls l rfl
    simp [readMove, hnone]

end Header

namespace Envelope

/-- What a patch consists of: blank lines, and files with what is written behind the leads of their
lines. -/
inductive Item
  | blank (l : Line)
  | delete (path : Text)
  | add (path : Text) (body : List Line)
  | update (path : Text) (body : List Line)
  | move (path dest : Text) (body : List Line)
deriving DecidableEq, Repr

namespace Item

def lines : Item → List Line
  | blank l => [l]
  | delete path => [Marker.deleteFile ++ path]
  | add path body => (Marker.addFile ++ path) :: body
  | update path body => (Marker.updateFile ++ path) :: body
  | move path dest body => (Marker.updateFile ++ path) :: (Header.moveLead ++ dest) :: body

def operation? : Item → Option Operation
  | blank _ => none
  | delete path => some (.delete path.trim)
  | add path body => some (.add path.trim body)
  | update path body => some (.update path.trim body none)
  | move path dest body => some (.update path.trim body (if dest.trim = [] then none else some dest.trim))

/-- The item is one of the grammar where the lines `rest` follow: its path is not blank, its body is as
long as can be, and no line that moves the file is taken for another. -/
def Proper (rest : List Line) : Item → Prop
  | blank l => l.trim = []
  | delete path => path.trim ≠ []
  | add path body => path.trim ≠ [] ∧ Header.Run body rest
  | update path body =>
    path.trim ≠ [] ∧ Header.Run body rest ∧ ∀ l ∈ (body ++ rest).head?, ¬Header.moveLead <+: l
  | move path _ body => path.trim ≠ [] ∧ Header.Run body rest

variable {item item' : Item} {rest rest' : List Line}

theorem Proper.path_ne_nil {op : Operation} (h : item.Proper rest) (hop : item.operation? = some op) :
    op.path ≠ [] := by
  cases item with
  | blank l => cases hop
  | delete path =>
    cases hop
    exact h
  | add path body =>
    cases hop
    exact h.1
  | update path body =>
    cases hop
    exact h.1
  | move path dest body =>
    cases hop
    exact h.1

theorem length_lines_pos (item : Item) : 0 < item.lines.length := by
  cases item <;> exact Nat.succ_pos _

theorem Proper.blank_of_operation?_eq_none (h : item.Proper rest) (hop : item.operation? = none) :
    ∃ l, item.lines = [l] ∧ l.trim = [] := by
  cases item with
  | blank l => exact ⟨l, rfl, h⟩
  | delete path => cases hop
  | add path body => cases hop
  | update path body => cases hop
  | move path dest body => cases hop

def opening? : Item → Option (Header × Text)
  | blank _ => none
  | delete path => some (.delete, path)
  | add path _ => some (.add, path)
  | update path _ => some (.update, path)
  | move path _ _ => some (.update, path)

theorem Proper.first (h : item.Proper rest) :
    (item.opening? = none ∧ ∃ l, item.lines = [l] ∧ l.trim = []) ∨
      ∃ header path more, item.opening? = some (header, path) ∧
        item.lines = (header.lead ++ path) :: more := by
  cases item with
  | blank l => exact .inl ⟨rfl, l, rfl, h⟩
  | delete path => exact .inr ⟨.delete, path, [], rfl, rfl⟩
  | add path body => exact .inr ⟨.add, path, body, rfl, rfl⟩
  | update path body => exact .inr ⟨.update, path, body, rfl, rfl⟩
  | move path dest body => exact .inr ⟨.update, path, _, rfl, rfl⟩

theorem Proper.opening?_congr (h : item.Proper rest) (h' : item'.Proper rest')
    (he : item.lines ++ rest = item'.lines ++ rest') : item.opening? = item'.opening? := by
  obtain ⟨hnone, l, hl, hblank⟩ | ⟨header, path, more, hsome, hl⟩ := h.first
  · obtain ⟨hnone', -⟩ | ⟨header', path', more', -, hl'⟩ := h'.first
    · rw [hnone, hnone']
    · rw [hl, hl'] at he
      obtain ⟨rfl, -⟩ := List.cons_eq_cons.1 he
      exact absurd hblank (header'.trim_lead_ne_nil path')
  · obtain ⟨-, l', hl', hblank'⟩ | ⟨header', path', more', hsome', hl'⟩ := h'.first
    · rw [hl, hl'] at he
      obtain ⟨rfl, -⟩ := List.cons_eq_cons.1 he
      exact absurd hblank' (header.trim_lead_ne_nil path)
    · rw [hl, hl'] at he
      obtain ⟨rfl, rfl⟩ := Header.lead_append_inj (List.cons_eq_cons.1 he).1
      rw [hsome, hsome']

/-- Where an item is written, no other is. -/
theorem Proper.inj (h : item.Proper rest) (h' : item'.Proper rest')
    (he : item.lines ++ rest = item'.lines ++ rest') : item = item' ∧ rest = rest' := by
  have hopening := h.opening?_congr h' he
  have hmore := congrArg List.tail he
  cases item with
  | blank l =>
    cases item' <;> cases hopening
    obtain ⟨rfl, rfl⟩ := List.cons_eq_cons.1 he
    exact ⟨rfl, rfl⟩
  | delete path =>
    cases item' <;> cases hopening
    exact ⟨rfl, hmore⟩
  | add path body =>
    cases item' <;> cases hopening
    obtain ⟨rfl, rfl⟩ := h.2.inj h'.2 hmore
    exact ⟨rfl, rfl⟩
  | update path body =>
    cases item' <;> cases hopening
    next body' =>
      obtain ⟨rfl, rfl⟩ := h.2.1.inj h'.2.1 hmore
      exact ⟨rfl, rfl⟩
    next dest' body' =>
      have hhead : (body ++ rest).head? = some (Header.moveLead ++ dest') := congrArg List.head? hmore
      exact absurd (List.prefix_append _ dest') (h.2.2 _ hhead)
  | move path dest body =>
    cases item' <;> cases hopening
    next body' =>
      have hhead : (body' ++ rest').head? = some (Header.moveLead ++ dest) :=
        congrArg List.head? hmore.symm
      exact absurd (List.prefix_append _ dest) (h'.2.2 _ hhead)
    next dest' body' =>
      obtain ⟨hdest, hbody⟩ := List.cons_eq_cons.1 hmore
      obtain rfl := List.append_cancel_left hdest
      obtain ⟨rfl, rfl⟩ := h.2.inj h'.2 hbody
      exact ⟨rfl, rfl⟩

end Item

def operations (items : List Item) : List Operation := items.filterMap Item.operation?

@[simp] theorem operations_cons (item : Item) (items : List Item) :
    operations (item :: items) = item.operation?.toList ++ operations items := by
  unfold operations
  rw [List.filterMap_cons]
  cases item.operation? <;> rfl

/-- The lines are those of the items one after another, up to the lines `ends`. -/
inductive Spells (ends : List Line) : List Item → List Line → Prop
  | nil : Spells ends [] ends
  | cons {item : Item} {items : List Item} {rest : List Line} (hitem : item.Proper rest)
      (hrest : Spells ends items rest) : Spells ends (item :: items) (item.lines ++ rest)

/-- The lines are those of a patch: one that begins it, the items, and as the last line the first that
ends it where an item could start. No path is named twice. -/
structure IsPatch (items : List Item) (ls : List Line) : Prop where
  lines : ∃ first rest last, ls = first :: rest ∧ first.trim = beginPatch ∧ Spells [last] items rest ∧
    last.trim = Marker.endPatch
  not_end : ∀ item ∈ items, ∀ l ∈ item.lines.head?, l.trim ≠ Marker.endPatch
  nodup : ((operations items).map Operation.path).Nodup

variable {seen : List Text} {item : Item} {items items' : List Item} {ls rest ends : List Line}

theorem readOperations_blank {l : Line} (hl : l.trim = []) :
    readOperations seen (l :: rest) = readOperations seen rest := by
  have hend : l.trim ≠ Marker.endPatch := by
    rw [hl]
    decide
  rw [readOperations, if_neg hend, if_pos hl]

theorem readOperations_header {h : Header} {path : Text} {op : Operation} {behind : List Line}
    (hend : (h.lead ++ path).trim ≠ Marker.endPatch) (hpath : path.trim ≠ []) (hseen : path.trim ∉ seen)
    (hop : h.operation path.trim rest = (op, behind)) :
    readOperations seen ((h.lead ++ path) :: rest) =
      (readOperations (path.trim :: seen) behind).map fun (ops, ends) => (op :: ops, ends) := by
  rw [readOperations, if_neg hend, if_neg (h.trim_lead_ne_nil path), h.read?_lead]
  simp only [if_neg hpath, if_neg hseen, hop]

theorem readOperations_item (hitem : item.Proper rest)
    (hend : ∀ l ∈ item.lines.head?, l.trim ≠ Marker.endPatch)
    (hseen : ∀ op ∈ item.operation?, op.path ∉ seen) :
    readOperations seen (item.lines ++ rest) =
      (readOperations (item.operation?.toList.map Operation.path ++ seen) rest).map fun (ops, ends) =>
        (item.operation?.toList ++ ops, ends) := by
  cases item with
  | blank l =>
    refine (readOperations_blank hitem).trans ?_
    exact (congrFun Except.map_id _).symm
  | delete path =>
    have hop : Header.delete.operation path.trim rest = (.delete path.trim, rest) := rfl
    exact readOperations_header (hend _ rfl) hitem (hseen _ rfl) hop
  | add path body =>
    obtain ⟨hpath, hrun⟩ := hitem
    have hop : Header.add.operation path.trim (body ++ rest) = (.add path.trim body, rest) := by
      rw [Header.operation, hrun.takeWhile, hrun.dropWhile]
    exact readOperations_header (hend _ rfl) hpath (hseen _ rfl) hop
  | update path body =>
    obtain ⟨hpath, hrun, hmove⟩ := hitem
    have hop : Header.update.operation path.trim (body ++ rest) = (.update path.trim body none, rest) := by
      simp only [Header.operation, Header.readMove_none hmove, hrun.takeWhile, hrun.dropWhile]
    exact readOperations_header (hend _ rfl) hpath (hseen _ rfl) hop
  | move path dest body =>
    obtain ⟨hpath, hrun⟩ := hitem
    have hop : Header.update.operation path.trim ((Header.moveLead ++ dest) :: (body ++ rest)) =
        (.update path.trim body (if dest.trim = [] then none else some dest.trim), rest) := by
      simp only [Header.operation, Header.readMove_move, hrun.takeWhile, hrun.dropWhile]
    exact readOperations_header (hend _ rfl) hpath (hseen _ rfl) hop

theorem exists_item (h : Header) {path : Text} (hpath : path.trim ≠ []) (ls : List Line) :
    ∃ item : Item, item.Proper (h.operation path.trim ls).2 ∧
      (h.lead ++ path) :: ls = item.lines ++ (h.operation path.trim ls).2 ∧
      item.operation? = some (h.operation path.trim ls).1 ∧
      item.lines.head? = some (h.lead ++ path) := by
  cases h with
  | delete => exact ⟨.delete path, hpath, rfl, rfl, rfl⟩
  | add =>
    refine ⟨.add path (ls.takeWhile Header.isBody), ⟨hpath, Header.run_takeWhile ls⟩, ?_, rfl, rfl⟩
    exact congrArg ((Marker.addFile ++ path) :: ·) List.takeWhile_append_dropWhile.symm
  | update =>
    by_cases hmove : ∃ l ∈ ls.head?, Header.moveLead <+: l
    · obtain ⟨l, hl, dest, rfl⟩ := hmove
      obtain ⟨ls, rfl⟩ := List.head?_eq_some_iff.1 hl
      simp only [Header.operation, Header.readMove_move]
      refine ⟨.move path dest (ls.takeWhile Header.isBody), ⟨hpath, Header.run_takeWhile ls⟩, ?_, rfl, rfl⟩
      exact congrArg (fun more => (Marker.updateFile ++ path) :: (Header.moveLead ++ dest) :: more)
        List.takeWhile_append_dropWhile.symm
    · replace hmove : ∀ l ∈ ls.head?, ¬Header.moveLead <+: l := fun l hl hlead => hmove ⟨l, hl, hlead⟩
      simp only [Header.operation, Header.readMove_none hmove]
      refine ⟨.update path (ls.takeWhile Header.isBody), ⟨hpath, Header.run_takeWhile ls, ?_⟩, ?_, rfl, rfl⟩
      · rwa [List.takeWhile_append_dropWhile]
      · exact congrArg ((Marker.updateFile ++ path) :: ·) List.takeWhile_append_dropWhile.symm

/-- Lines that are read are those of some items whose paths are new, up to a line that ends them. -/
theorem readOperations_spells {ops : List Operation} (h : readOperations seen ls = .ok (ops, ends)) :
    ∃ items, Spells ends items ls ∧ operations items = ops ∧
      (∀ item ∈ items, ∀ l ∈ item.lines.head?, l.trim ≠ Marker.endPatch) ∧
      (∀ l ∈ ends.head?, l.trim = Marker.endPatch) ∧
      (ops.map Operation.path).Nodup ∧ ∀ op ∈ ops, op.path ∉ seen := by
  induction seen, ls using readOperations.induct generalizing ops ends with
  | case1 seen =>
    rw [readOperations] at h
    cases h
    exact ⟨[], .nil, rfl, List.forall_mem_nil _, by simp, List.nodup_nil, List.forall_mem_nil _⟩
  | case2 seen l rest hend =>
    rw [readOperations, if_pos hend] at h
    cases h
    refine ⟨[], .nil, rfl, List.forall_mem_nil _, fun l' hl' => ?_, List.nodup_nil, List.forall_mem_nil _⟩
    cases hl'
    exact hend
  | case3 seen l rest hend hblank ih =>
    rw [readOperations_blank hblank] at h
    obtain ⟨items, hspells, hops, hnot, hlast, hpaths⟩ := ih h
    refine ⟨.blank l :: items, .cons hblank hspells, hops, ?_, hlast, hpaths⟩
    refine List.forall_mem_cons.2 ⟨fun l' hl' => ?_, hnot⟩
    cases hl'
    exact hend
  | case4 seen l rest hend hblank hread =>
    rw [readOperations, if_neg hend, if_neg hblank, hread] at h
    cases h
  | case5 seen l rest hend hblank header hread =>
    rw [readOperations, if_neg hend, if_neg hblank, hread] at h
    cases h
  | case6 seen l rest hend hblank header path hread hpath hseen =>
    rw [readOperations, if_neg hend, if_neg hblank, hread] at h
    simp only [hpath, hseen, if_false, if_true] at h
    cases h
  | case7 seen l rest hend hblank header path hread hpath hseen ih =>
    obtain ⟨raw, rfl, rfl⟩ := Header.read?_eq_some hread
    rw [readOperations_header hend hpath hseen rfl] at h
    obtain ⟨⟨ops', ends'⟩, hrest, he⟩ := Except.map_eq_ok.1 h
    cases he
    obtain ⟨items, hspells, rfl, hnot, hlast, hnodup, hnew⟩ := ih hrest
    obtain ⟨item, hproper, hlines, hop, hhead⟩ := exists_item header hpath rest
    have hpath' := header.path_operation raw.trim rest
    refine ⟨item :: items, hlines ▸ .cons hproper hspells, List.filterMap_cons_some hop, ?_, hlast, ?_, ?_⟩
    · refine List.forall_mem_cons.2 ⟨fun l' hl' => ?_, hnot⟩
      cases hhead.symm.trans hl'
      exact hend
    · refine List.nodup_cons.2 ⟨fun hmem => ?_, hnodup⟩
      obtain ⟨op, hop, he⟩ := List.mem_map.1 hmem
      exact hnew op hop (he.trans hpath' ▸ List.mem_cons_self)
    · refine List.forall_mem_cons.2 ⟨hpath'.symm ▸ hseen, fun op hop hmem => ?_⟩
      exact hnew op hop (List.mem_cons_of_mem _ hmem)

namespace Spells

/-- The items that lines spell are read from them. -/
theorem readOperations {last : Line} (h : Spells [last] items ls) (hlast : last.trim = Marker.endPatch)
    (hnot : ∀ item ∈ items, ∀ l ∈ item.lines.head?, l.trim ≠ Marker.endPatch)
    (hnodup : ((operations items).map Operation.path).Nodup)
    (hnew : ∀ op ∈ operations items, op.path ∉ seen) :
    Envelope.readOperations seen ls = .ok (operations items, [last]) := by
  induction h generalizing seen with
  | nil =>
    rw [Envelope.readOperations, if_pos hlast]
    rfl
  | @cons item items rest hitem hrest ih =>
    obtain ⟨hend, hnot⟩ := List.forall_mem_cons.1 hnot
    rw [operations_cons] at hnodup hnew ⊢
    rw [List.map_append, List.nodup_append] at hnodup
    obtain ⟨-, hnodup, hapart⟩ := hnodup
    obtain ⟨hhere, hnew⟩ := List.forall_mem_append.1 hnew
    rw [readOperations_item hitem hend fun op hop => hhere op (Option.mem_toList.2 hop),
      ih hnot hnodup fun op hop hmem => ?_]
    · rfl
    · obtain hmem | hmem := List.mem_append.1 hmem
      · exact hapart _ hmem _ (List.mem_map_of_mem hop) rfl
      · exact hnew op hop hmem

theorem length_le (h : Spells ends items ls) : items.length + ends.length ≤ ls.length := by
  induction h with
  | nil => simp
  | @cons item items rest hitem hrest ih =>
    have hfirst := item.length_lines_pos
    rw [List.length_cons, List.length_append]
    omega

theorem lines_eq (h : Spells ends items ls) : ls = items.flatMap Item.lines ++ ends := by
  induction h with
  | nil => rfl
  | cons hitem hrest ih => rw [List.flatMap_cons, List.append_assoc, ← ih]

theorem proper (h : Spells ends items ls) : ∀ item ∈ items, ∃ rest, item.Proper rest := by
  induction h with
  | nil => exact nofun
  | cons hitem hrest ih => exact List.forall_mem_cons.2 ⟨⟨_, hitem⟩, ih⟩

/-- The same lines spell no other items. -/
theorem unique {last last' : Line} {ls' : List Line} (h : Spells [last] items ls)
    (h' : Spells [last'] items' ls') (he : ls = ls') : items = items' := by
  induction h generalizing items' ls' with
  | nil =>
    have hle := h'.length_le
    rw [← he, List.length_singleton, List.length_singleton] at hle
    exact (List.eq_nil_of_length_eq_zero (by omega)).symm
  | @cons item items rest hitem hrest ih =>
    cases h' with
    | nil =>
      have hle := (Spells.cons hitem hrest).length_le
      rw [he, List.length_cons, List.length_singleton, List.length_singleton] at hle
      omega
    | cons hitem' hrest' =>
      obtain ⟨rfl, hrest_eq⟩ := hitem.inj hitem' he
      rw [ih hrest' hrest_eq]

end Spells

namespace IsPatch

variable {t : Text}

theorem unique (h : IsPatch items ls) (h' : IsPatch items' ls) : items = items' := by
  obtain ⟨first, rest, last, rfl, -, hspells, -⟩ := h.lines
  obtain ⟨first', rest', last', he, -, hspells', -⟩ := h'.lines
  exact hspells.unique hspells' (List.cons_eq_cons.1 he).2

theorem read (h : IsPatch items (patchLines t.trim)) : Envelope.read t = .ok (operations items) := by
  obtain ⟨first, rest, last, hlines, hfirst, hspells, hlast⟩ := h.lines
  have hread : readOperations [] rest = .ok (operations items, [last]) :=
    hspells.readOperations hlast h.not_end h.nodup fun _ _ => List.not_mem_nil
  simp only [Envelope.read, hlines, if_pos hfirst, hread]
  rfl

end IsPatch

theorem isPatch_of_read {t : Text} {ops : List Operation} (h : read t = .ok ops) :
    ∃ items, IsPatch items (patchLines t.trim) ∧ operations items = ops := by
  unfold read at h
  split at h
  · cases h
  · next first rest hlines =>
    split at h
    · next hfirst =>
      split at h
      · cases h
      · next ops' ends hread =>
        split at h
        · next hone =>
          cases h
          obtain ⟨last, rfl⟩ := List.length_eq_one_iff.1 hone
          obtain ⟨items, hspells, rfl, hnot, hlast, hnodup, -⟩ := readOperations_spells hread
          exact ⟨items, ⟨⟨first, rest, last, hlines, hfirst, hspells, hlast last rfl⟩, hnot, hnodup⟩, rfl⟩
        · cases h
    · cases h

/-- A patch is read if and only if its lines are those of some items of the grammar. They are then no
others, and the operations are theirs, in order: their paths are distinct and not empty, and a line
between the first and the last is in one of them or is blank. -/
theorem read_iff_isPatch (t : Text) :
    ((∃ ops, read t = .ok ops) ↔ ∃ items, IsPatch items (patchLines t.trim)) ∧
      ∀ ops, read t = .ok ops →
        ∃ items, IsPatch items (patchLines t.trim) ∧
          (∀ items', IsPatch items' (patchLines t.trim) → items' = items) ∧ operations items = ops ∧
          (ops.map Operation.path).Nodup ∧ (∀ op ∈ ops, op.path ≠ []) ∧
          (patchLines t.trim).tail.dropLast = items.flatMap Item.lines ∧
          ∀ item ∈ items, item.operation? = none → ∃ l, item.lines = [l] ∧ l.trim = [] := by
  refine ⟨⟨fun ⟨ops, hread⟩ => ?_, fun ⟨items, hpatch⟩ => ⟨_, hpatch.read⟩⟩, fun ops hread => ?_⟩
  · obtain ⟨items, hpatch, -⟩ := isPatch_of_read hread
    exact ⟨items, hpatch⟩
  · obtain ⟨items, hpatch, rfl⟩ := isPatch_of_read hread
    obtain ⟨first, rest, last, hlines, -, hspells, -⟩ := hpatch.lines
    refine ⟨items, hpatch, fun items' hpatch' => hpatch'.unique hpatch, rfl, hpatch.nodup, ?_, ?_, ?_⟩
    · intro op hop
      obtain ⟨item, hitem, hop⟩ := List.mem_filterMap.1 hop
      obtain ⟨behind, hproper⟩ := hspells.proper item hitem
      exact hproper.path_ne_nil hop
    · rw [hlines, List.tail_cons, hspells.lines_eq, List.dropLast_concat]
    · intro item hitem hop
      obtain ⟨behind, hproper⟩ := hspells.proper item hitem
      exact hproper.blank_of_operation?_eq_none hop

/-- Behind a file that is deleted a blank line is nothing; in a body it is content, and so are a second
line that would move the file and an end that is set off. -/
theorem read_iff_isPatch_blank :
    let t : Text := ("*** Begin Patch \n*** Delete File: a\n\t\n*** Update File:b\n*** Move to: \n" ++
      "\n*** Move to: c\n *** End Patch\n*** Add File: d\n*** End Patch\n").toList
    let ops : List Operation :=
      [.delete ['a'], .update ['b'] [[], "*** Move to: c".toList, " *** End Patch".toList] none, .add ['d'] []]
    read t = .ok ops ∧ ∃ items, IsPatch items (patchLines t.trim) ∧ operations items = ops := by
  intro t ops
  have hread : read t = .ok ops := by decide +kernel
  obtain ⟨items, hpatch, -, hops, -⟩ := (read_iff_isPatch t).2 ops hread
  exact ⟨hread, items, hpatch, hops⟩

end Envelope

end Emend
