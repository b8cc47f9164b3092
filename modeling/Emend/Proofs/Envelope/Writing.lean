import Emend.Proofs.Envelope.Grammar
import Emend.Proofs.Text.Joined

namespace Emend

namespace Header

theorem isBody_lead (h : Header) (path : Text) : isBody (h.lead ++ path) = false := by
  cases h <;> rfl

theorem trim_lead_ne_endPatch (h : Header) (path : Text) : (h.lead ++ path).trim ≠ Marker.endPatch := by
  intro htrim
  have hleft : (h.lead ++ path).trimLeft = h.lead ++ path := by
    refine Text.trimLeft_of_head? fun c hc => ?_
    obtain ⟨t, ht⟩ := h.lead_eq_cons
    rw [ht] at hc
    cases hc
    decide
  have hend : Marker.endPatch <+: h.lead ++ path := by
    rw [← htrim, Text.trim, hleft]
    exact Text.trimRight_isPrefix _
  have hapart : ¬Marker.endPatch <+: h.lead ∧ ¬h.lead <+: Marker.endPatch := by cases h <;> decide
  obtain hle | hle := List.prefix_or_prefix_of_prefix hend (List.prefix_append h.lead path)
  · exact hapart.1 hle
  · exact hapart.2 hle

theorem not_moveLead_of_isBody {l : Line} (hl : isBody l = false) : ¬moveLead <+: l := by
  intro hmove
  obtain ⟨lead, hmem, hlead⟩ : ∃ lead ∈ Marker.fileEnds, lead <+: l := by
    simpa [isBody, Text.startsWithAny, List.isPrefixOf_iff_prefix] using hl
  have hapart : ∀ lead ∈ Marker.fileEnds, ¬lead <+: moveLead ∧ ¬moveLead <+: lead := by decide
  obtain hle | hle := List.prefix_or_prefix_of_prefix hlead hmove
  · exact (hapart lead hmem).1 hle
  · exact (hapart lead hmem).2 hle

end Header

namespace Operation

/-- What the operation says: what it does to which file, the text of its body, and where the file goes. -/
def fields (op : Operation) : Text × Text × Text × Option Text := (op.action, op.path, op.diff, op.moveTo?)

/-- The operation without a body that is one empty line: that one has no text either. -/
def compact (op : Operation) : Operation :=
  if op.diff = [] then
    match op with
    | add path _ => add path []
    | update path _ dest => update path [] dest
    | delete path => delete path
  else op

def item : Operation → Envelope.Item
  | delete path => .delete (' ' :: path)
  | add path body => .add (' ' :: path) body
  | update path body none => .update (' ' :: path) body
  | update path body (some dest) => .move (' ' :: path) dest body

/-- A path that is read as it is written behind a lead. -/
def Verbatim (path : Text) : Prop := path ≠ [] ∧ path.trim = path ∧ '\n' ∉ path

instance (path : Text) : Decidable (Verbatim path) := inferInstanceAs (Decidable (_ ∧ _))

theorem Verbatim.writable {path : Text} (h : Verbatim path) {lead : Text} (hlead : '\n' ∉ lead) :
    Writable (lead ++ path) := by
  obtain ⟨hne, htrim, hline⟩ := h
  refine ⟨List.not_mem_append hlead hline, fun hlast => ?_⟩
  rw [List.getLast?_append, List.getLast?_eq_some_getLast hne, Option.some_or,
    ← List.getLast?_eq_some_getLast hne, ← htrim] at hlast
  have hblank := Text.getLast?_trim path _ hlast
  revert hblank
  decide

/-- The operation can be written in a patch: its paths and lines can, no line of its body ends the body,
and the first is not taken for one that moves the file. -/
structure Expressible (op : Operation) : Prop where
  path : Verbatim op.path
  dest : ∀ dest ∈ op.moveTo?, Verbatim dest
  body : ∀ l ∈ op.body, Writable l ∧ Header.isBody l = true
  first : op = update op.path op.body none → ∀ l ∈ op.body.head?, ¬Header.moveLead <+: l

instance (op : Operation) : Decidable op.Expressible :=
  decidable_of_iff (Verbatim op.path ∧ (∀ dest ∈ op.moveTo?, Verbatim dest) ∧
      (∀ l ∈ op.body, Writable l ∧ Header.isBody l = true) ∧
      (op = update op.path op.body none → ∀ l ∈ op.body.head?, ¬Header.moveLead <+: l))
    ⟨fun ⟨path, dest, body, first⟩ => ⟨path, dest, body, first⟩,
      fun ⟨path, dest, body, first⟩ => ⟨path, dest, body, first⟩⟩

variable {op : Operation} {rest : List Line}

theorem fields_compact (op : Operation) : op.compact.fields = op.fields := by
  unfold compact
  split
  · next hdiff =>
    have hempty : diff op = Text.ofLines [] := hdiff
    cases op <;> simp only [fields, hempty] <;> rfl
  · rfl

theorem compact_eq (h : op.body ≠ [[]]) : op.compact = op := by
  unfold compact
  split
  · next hdiff =>
    have hbody : op.body = [] := (Text.ofLines_eq_nil.1 hdiff).resolve_right h
    cases op with
    | add path body => exact congrArg (add path) hbody.symm
    | update path body dest => exact congrArg (update path · dest) hbody.symm
    | delete path => rfl
  · rfl

theorem Expressible.compact (h : op.Expressible) : op.compact.Expressible := by
  unfold Operation.compact
  split
  · cases op with
    | add path body => exact ⟨h.path, h.dest, nofun, nofun⟩
    | update path body dest => exact ⟨h.path, h.dest, nofun, nofun⟩
    | delete path => exact h
  · exact h

theorem Expressible.operation?_item (h : op.Expressible) : op.item.operation? = some op := by
  have hpath : Text.trim (' ' :: op.path) = op.path := (Text.trim_space_cons _).trans h.path.2.1
  cases op with
  | delete path => exact congrArg (fun p => some (delete p)) hpath
  | add path body => exact congrArg (fun p => some (add p body)) hpath
  | update path body dest? =>
    cases dest? with
    | none => exact congrArg (fun p => some (update p body none)) hpath
    | some dest =>
      obtain ⟨hne, htrim, -⟩ := h.dest dest rfl
      show some (update (Text.trim (' ' :: path)) body (if dest.trim = [] then none else some dest.trim)) = _
      rw [htrim, if_neg hne]
      exact congrArg (fun p => some (update p body (some dest))) hpath

theorem Expressible.proper_item (h : op.Expressible)
    (hrest : ∀ l ∈ rest.head?, Header.isBody l = false) : op.item.Proper rest := by
  have hpath : Text.trim (' ' :: op.path) ≠ [] := by
    rw [Text.trim_space_cons, h.path.2.1]
    exact h.path.1
  have hrun : Header.Run op.body rest := ⟨fun l hl => (h.body l hl).2, hrest⟩
  cases op with
  | delete path => exact hpath
  | add path body => exact ⟨hpath, hrun⟩
  | update path body dest? =>
    cases dest? with
    | some dest => exact ⟨hpath, hrun⟩
    | none =>
      refine ⟨hpath, hrun, ?_⟩
      cases body with
      | nil => exact fun l hl => Header.not_moveLead_of_isBody (hrest l hl)
      | cons l body => exact h.first rfl

theorem head?_lines_item (op : Operation) :
    ∃ h path, op.item.lines.head? = some (Header.lead h ++ path) := by
  cases op with
  | delete path => exact ⟨.delete, _, rfl⟩
  | add path body => exact ⟨.add, _, rfl⟩
  | update path body dest? => cases dest? <;> exact ⟨.update, _, rfl⟩

theorem Expressible.writable_lines (h : op.Expressible) : ∀ l ∈ op.item.lines, Writable l := by
  have hheader : ∀ header : Header, Writable (header.lead ++ ' ' :: op.path) := by
    intro header
    rw [List.append_cons]
    exact h.path.writable (by cases header <;> decide)
  have hbody : ∀ l ∈ op.body, Writable l := fun l hl => (h.body l hl).1
  cases op with
  | delete path => exact List.forall_mem_singleton.2 (hheader .delete)
  | add path body => exact List.forall_mem_cons.2 ⟨hheader .add, hbody⟩
  | update path body dest? =>
    cases dest? with
    | none => exact List.forall_mem_cons.2 ⟨hheader .update, hbody⟩
    | some dest =>
      have hmove : Writable (Header.moveLead ++ dest) := (h.dest dest rfl).writable (by decide)
      exact List.forall_mem_cons.2 ⟨hheader .update, List.forall_mem_cons.2 ⟨hmove, hbody⟩⟩

end Operation

namespace Envelope

variable {ops : List Operation}

def writeLines (ops : List Operation) : List Line :=
  beginPatch :: (ops.flatMap (fun op => op.item.lines) ++ [Marker.endPatch])

def write (ops : List Operation) : Text := Text.ofLines (writeLines (ops.map Operation.compact))

theorem trim_writeLines (ops : List Operation) :
    (Text.ofLines (writeLines ops)).trim = Text.ofLines (writeLines ops) := by
  refine Text.trim_eq_self (fun c hc => ?_) fun c hc => ?_
  · obtain ⟨t, ht⟩ : beginPatch <+: Text.ofLines (writeLines ops) := Text.prefix_ofLines _ _
    rw [← ht] at hc
    cases hc
    decide
  · obtain ⟨t, ht⟩ : Marker.endPatch <:+ Text.ofLines (writeLines ops) := by
      rw [writeLines, ← List.cons_append]
      exact Text.suffix_ofLines _ _
    rw [← ht, List.getLast?_append] at hc
    cases hc
    decide

theorem patchLines_writeLines (h : ∀ op ∈ ops, op.Expressible) :
    patchLines (Text.ofLines (writeLines ops)) = writeLines ops := by
  refine patchLines_ofLines (fun l hl => ?_) ?_
  · obtain rfl | hl := List.mem_cons.1 hl
    · decide
    obtain hl | hl := List.mem_append.1 hl
    · obtain ⟨op, hop, hl⟩ := List.mem_flatMap.1 hl
      exact (h op hop).writable_lines l hl
    · obtain rfl := List.mem_singleton.1 hl
      decide
  · rw [writeLines, ← List.cons_append, List.getLast?_concat]
    nofun

theorem spells_item (h : ∀ op ∈ ops, op.Expressible) :
    ∃ ls, Spells [Marker.endPatch] (ops.map Operation.item) ls ∧
      ∀ l ∈ ls.head?, Header.isBody l = false := by
  induction ops with
  | nil =>
    refine ⟨[Marker.endPatch], .nil, fun l hl => ?_⟩
    cases hl
    decide
  | cons op ops ih =>
    obtain ⟨hop, hops⟩ := List.forall_mem_cons.1 h
    obtain ⟨ls, hspells, hhead⟩ := ih hops
    refine ⟨op.item.lines ++ ls, .cons (hop.proper_item hhead) hspells, fun l hl => ?_⟩
    obtain ⟨header, path, hfirst⟩ := op.head?_lines_item
    rw [List.head?_append, hfirst] at hl
    cases hl
    exact header.isBody_lead path

theorem operations_item (h : ∀ op ∈ ops, op.Expressible) : operations (ops.map Operation.item) = ops := by
  induction ops with
  | nil => rfl
  | cons op ops ih =>
    obtain ⟨hop, hops⟩ := List.forall_mem_cons.1 h
    rw [List.map_cons, operations_cons, hop.operation?_item, ih hops]
    rfl

theorem isPatch_writeLines (h : ∀ op ∈ ops, op.Expressible) (hpaths : (ops.map Operation.path).Nodup) :
    IsPatch (ops.map Operation.item) (writeLines ops) := by
  obtain ⟨ls, hspells, -⟩ := spells_item h
  refine ⟨⟨beginPatch, ls, Marker.endPatch, ?_, by decide, hspells, by decide⟩, ?_, ?_⟩
  · rw [hspells.lines_eq, writeLines, List.flatMap_map]
  · refine List.forall_mem_map.2 fun op hop l hl => ?_
    obtain ⟨header, path, hfirst⟩ := op.head?_lines_item
    cases hfirst.symm.trans hl
    exact header.trim_lead_ne_endPatch path
  · rwa [operations_item h]

theorem read_writeLines (h : ∀ op ∈ ops, op.Expressible) (hpaths : (ops.map Operation.path).Nodup) :
    read (Text.ofLines (writeLines ops)) = .ok ops := by
  have hpatch : IsPatch (ops.map Operation.item) (patchLines (Text.ofLines (writeLines ops)).trim) := by
    rw [trim_writeLines, patchLines_writeLines h]
    exact isPatch_writeLines h hpaths
  rw [hpatch.read, operations_item h]

/-- Operations on distinct paths are read as they are from the patch that writes them. Only a body that
is one empty line comes back without it, and says the same. -/
theorem read_write (ops : List Operation) (h : ∀ op ∈ ops, op.Expressible)
    (hpaths : (ops.map Operation.path).Nodup) :
    ∃ ops', read (write ops) = .ok ops' ∧ ops'.map Operation.fields = ops.map Operation.fields ∧
      ((∀ op ∈ ops, op.body ≠ [[]]) → ops' = ops) := by
  have hpaths' : ((ops.map Operation.compact).map Operation.path).Nodup := by
    have hsame : (ops.map Operation.compact).map Operation.path = ops.map Operation.path := by
      rw [List.map_map]
      exact List.map_congr_left fun op _ => congrArg (fun fields => fields.2.1) op.fields_compact
    rwa [hsame]
  have hcompact : ∀ op ∈ ops.map Operation.compact, op.Expressible :=
    List.forall_mem_map.2 fun op hop => (h op hop).compact
  refine ⟨_, read_writeLines hcompact hpaths', ?_, fun hbodies => ?_⟩
  · rw [List.map_map]
    exact List.map_congr_left fun op _ => op.fields_compact
  · exact (List.map_congr_left fun op hop => Operation.compact_eq (hbodies op hop)).trans (List.map_id' ops)

theorem read_write_markers :
    let ops : List Operation := [.add ['a'] [[], "+x\ry".toList, [' ']], .delete "b c".toList,
      .update ['d'] ["*** Move to: e".toList, "*** End of File".toList] (some Marker.endPatch),
      .update ['f'] [[]] none]
    let t : Text := ("*** Begin Patch\n*** Add File: a\n\n+x\ry\n \n*** Delete File: b c\n*** Update File: d\n" ++
      "*** Move to: *** End Patch\n*** Move to: e\n*** End of File\n*** Update File: f\n*** End Patch").toList
    (∀ op ∈ ops, op.Expressible) ∧ (ops.map Operation.path).Nodup ∧ write ops = t ∧
      ∃ ops', read t = .ok ops' ∧ ops'.map Operation.fields = ops.map Operation.fields := by
  intro ops t
  have hops : ∀ op ∈ ops, op.Expressible := by decide +kernel
  have hpaths : (ops.map Operation.path).Nodup := by decide +kernel
  have hwrite : write ops = t := by decide +kernel
  obtain ⟨ops', hread, hfields, -⟩ := read_write ops hops hpaths
  exact ⟨hops, hpaths, hwrite, ops', hwrite ▸ hread, hfields⟩

end Envelope

end Emend
