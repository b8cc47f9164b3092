import Mathlib.Algebra.GroupWithZero.Nat
import Mathlib.Algebra.Ring.Int.Defs
import Emend.Proofs.Patch.Splice

namespace Emend

namespace Chunk

/-- The lines with the chunk made in them by itself: a slice of them gives way to the new lines. -/
def replaceIn (ch : Chunk) (ls : List Line) : List Line :=
  ls.take ch.index.toNat ++ ch.inserted ++ ls.drop (ch.index.toNat + ch.deleted.length)

/-- Where the chunk in front of the `k`-th one stops. In front of the first, that is `start`. -/
def stopBefore (start : Nat) (chunks : List Chunk) : Nat → Nat
  | 0 => start
  | k + 1 => (chunks[k]?.map fun ch => ch.index.toNat + ch.deleted.length).getD 0

/-- The `k`-th chunk starts in the document, and not before the one in front of it stops. -/
def FitsAt (length start : Nat) (chunks : List Chunk) (k : Nat) : Prop :=
  ∀ ch, chunks[k]? = some ch → ch.index ≤ length ∧ (stopBefore start chunks k : Int) ≤ ch.index

def misfit (length stop : Nat) (ch : Chunk) : PatchError :=
  if length < ch.index then .outOfRange ch.index length else .overlap ch.index stop

section Fits

variable {length start : Nat} {ch : Chunk} {chunks : List Chunk}

theorem stopBefore_cons (start : Nat) (ch : Chunk) (chunks : List Chunk) (k : Nat) :
    stopBefore start (ch :: chunks) (k + 1) =
      stopBefore (ch.index.toNat + ch.deleted.length) chunks k := by
  cases k <;> rfl

theorem fitsAt_zero : FitsAt length start (ch :: chunks) 0 ↔ ch.index ≤ length ∧ start ≤ ch.index := by
  constructor
  · intro h
    exact h ch rfl
  · intro h ch' hch'
    cases hch'
    exact h

theorem fitsAt_succ (k : Nat) : FitsAt length start (ch :: chunks) (k + 1) ↔
    FitsAt length (ch.index.toNat + ch.deleted.length) chunks k := by
  rw [FitsAt, FitsAt, stopBefore_cons, List.getElem?_cons_succ]

theorem spliceFrom_cons (h : ch.index ≤ length ∧ start ≤ ch.index) (rest : List Line) :
    spliceFrom length start rest (ch :: chunks) =
      (spliceFrom length (ch.index.toNat + ch.deleted.length)
        (rest.drop (ch.index.toNat - start + ch.deleted.length)) chunks).map
          (rest.take (ch.index.toNat - start) ++ ch.inserted ++ ·) := by
  rw [spliceFrom, if_neg (Int.not_lt.2 h.1), if_neg (Int.not_lt.2 h.2)]

theorem exists_spliceFrom_of_fits (rest : List Line) (h : ∀ k, FitsAt length start chunks k) :
    ∃ out, spliceFrom length start rest chunks = .ok out := by
  induction chunks generalizing start rest with
  | nil => exact ⟨rest, rfl⟩
  | cons ch chunks ih =>
    obtain ⟨tail, htail⟩ :=
      ih (rest.drop (ch.index.toNat - start + ch.deleted.length)) fun k => (fitsAt_succ k).1 (h (k + 1))
    rw [spliceFrom_cons (fitsAt_zero.1 (h 0)), htail]
    exact ⟨_, rfl⟩

/-- The first chunk that does not fit is the one that is refused. -/
theorem spliceFrom_misfit {k : Nat} (rest : List Line) (hch : chunks[k]? = some ch)
    (hfits : ∀ j < k, FitsAt length start chunks j) (hnot : ¬FitsAt length start chunks k) :
    spliceFrom length start rest chunks = .error (misfit length (stopBefore start chunks k) ch) := by
  induction k generalizing start rest chunks with
  | zero =>
    obtain ⟨chunks, rfl⟩ := List.head?_eq_some_iff.1 (List.head?_eq_getElem?.trans hch)
    rw [fitsAt_zero, not_and_or, Int.not_le, Int.not_le] at hnot
    rw [spliceFrom, misfit, stopBefore]
    split
    · rfl
    · next hin => rw [if_pos (hnot.resolve_left hin)]
  | succ k ih =>
    cases chunks with
    | nil => cases hch
    | cons first chunks =>
      have hfirst := fitsAt_zero.1 (hfits 0 k.succ_pos)
      rw [spliceFrom_cons hfirst, stopBefore_cons, Except.map_eq_error]
      apply ih
      · exact hch
      · intro j hj
        exact (fitsAt_succ j).1 (hfits (j + 1) (Nat.succ_lt_succ hj))
      · intro hfit
        exact hnot ((fitsAt_succ k).2 hfit)

theorem fits_of_spliceFrom {rest out : List Line} (h : spliceFrom length start rest chunks = .ok out)
    (k : Nat) : FitsAt length start chunks k := by
  induction chunks generalizing start rest out k with
  | nil => exact nofun
  | cons ch chunks ih =>
    obtain ⟨hlow, hhigh, tail, htail, -⟩ := spliceFrom_cons_eq_ok.1 h
    cases k with
    | zero => exact fitsAt_zero.2 ⟨hhigh, hlow⟩
    | succ k => exact (fitsAt_succ k).2 (ih htail k)

theorem eq_nil_of_spliceFrom {rest out : List Line} (hlong : length < start)
    (h : spliceFrom length start rest chunks = .ok out) : chunks = [] ∧ out = rest := by
  cases chunks with
  | nil =>
    cases h
    exact ⟨rfl, rfl⟩
  | cons ch chunks =>
    obtain ⟨hlow, hhigh, -⟩ := spliceFrom_cons_eq_ok.1 h
    omega

/-- The chunks behind a line, made one by one from the last to the first, leave the lines before it and
what one pass makes of those from it on. -/
theorem foldr_replaceIn {doc out : List Line}
    (h : spliceFrom doc.length start (doc.drop start) chunks = .ok out) :
    chunks.foldr replaceIn doc = doc.take start ++ out := by
  induction chunks generalizing start out with
  | nil =>
    cases h
    exact (List.take_append_drop start doc).symm
  | cons ch chunks ih =>
    obtain ⟨hlow, hhigh, tail, htail, rfl⟩ := spliceFrom_cons_eq_ok.1 h
    have hstart : start + (ch.index.toNat - start + ch.deleted.length) =
        ch.index.toNat + ch.deleted.length := by omega
    rw [List.drop_drop, hstart] at htail
    rw [List.foldr_cons, ih htail, replaceIn]
    have htake : (doc.take (ch.index.toNat + ch.deleted.length) ++ tail).take ch.index.toNat =
        doc.take start ++ (doc.drop start).take (ch.index.toNat - start) := by
      rw [List.take_append_of_le_length (by rw [List.length_take]; omega), List.take_take,
        Nat.min_eq_left (Nat.le_add_right _ _), ← List.take_add, Nat.add_sub_cancel' (by omega)]
    have hdrop : (doc.take (ch.index.toNat + ch.deleted.length) ++ tail).drop
        (ch.index.toNat + ch.deleted.length) = tail := by
      by_cases hlong : doc.length < ch.index.toNat + ch.deleted.length
      · -- A last chunk may delete more lines than there are. Nothing is left behind it.
        obtain ⟨-, rfl⟩ := eq_nil_of_spliceFrom hlong htail
        rw [List.take_append_drop]
      · exact List.drop_left' (by rw [List.length_take]; omega)
    rw [htake, hdrop]
    simp only [List.append_assoc]

end Fits

/-- Chunks can be made if and only if each of them starts in the document, and not before the one in front
of it stops. They do what each does by itself, the last one first. Otherwise the first chunk that does not
fit is refused: for its place outside the document, if that is so, and else for the overlap. -/
theorem apply_replaces (t : Text) (chunks : List Chunk) :
    let n := t.lines.length
    ((∃ s, apply chunks t = .ok s) ↔ ∀ k, FitsAt n 0 chunks k) ∧
      (∀ s, apply chunks t = .ok s → s = Text.ofLines (chunks.foldr replaceIn t.lines)) ∧
      ∀ k ch, chunks[k]? = some ch → (∀ j < k, FitsAt n 0 chunks j) → ¬FitsAt n 0 chunks k →
        apply chunks t = .error (misfit n (stopBefore 0 chunks k) ch) := by
  intro n
  refine ⟨⟨?_, ?_⟩, ?_, ?_⟩
  · rintro ⟨s, hs⟩
    obtain ⟨out, hout, -⟩ := Except.map_eq_ok.1 hs
    exact fits_of_spliceFrom hout
  · intro hfits
    obtain ⟨out, hout⟩ := exists_spliceFrom_of_fits t.lines hfits
    exact ⟨Text.ofLines out, Except.map_eq_ok.2 ⟨out, hout, rfl⟩⟩
  · intro s hs
    obtain ⟨out, hout, rfl⟩ := Except.map_eq_ok.1 hs
    have hmade : chunks.foldr replaceIn t.lines = t.lines.take 0 ++ out := foldr_replaceIn hout
    rw [hmade, List.take_zero, List.nil_append]
  · intro k ch hch hfits hnot
    exact Except.map_eq_error.2 (spliceFrom_misfit t.lines hch hfits hnot)

/-- Two insertions at one line, and a last chunk that deletes more lines than there are; and a chunk that
starts inside the lines that the one in front of it deletes. -/
theorem apply_replaces_overshoot :
    let t := "a\nb\nc".toList
    let chunks : List Chunk := [⟨1, [], [['x']]⟩, ⟨1, [], [['y']]⟩, ⟨2, [['c'], ['d']], [['z']]⟩]
    let twice : List Chunk := [⟨0, [['a'], ['b']], []⟩, ⟨1, [], [['x']]⟩, ⟨7, [], []⟩]
    (∃ s, apply chunks t = .ok s ∧ s = "a\nx\ny\nb\nz".toList) ∧
      apply twice t = .error (.overlap 1 2) := by
  intro t chunks twice
  have hmade : apply chunks t = .ok "a\nx\ny\nb\nz".toList := by decide +kernel
  obtain ⟨hfits, hvalue, -⟩ := apply_replaces t chunks
  obtain ⟨-, -, hrefused⟩ := apply_replaces t twice
  refine ⟨?_, hrefused 1 ⟨1, [], [['x']]⟩ rfl ?_ ?_⟩
  · obtain ⟨s, hs⟩ := hfits.2 (hfits.1 ⟨_, hmade⟩)
    exact ⟨s, hs, (hvalue s hs).trans (by decide +kernel)⟩
  · intro j hj
    obtain rfl := Nat.lt_one_iff.1 hj
    exact fitsAt_zero.2 (by decide)
  · intro hfit
    obtain ⟨-, hlow⟩ := hfit _ rfl
    exact absurd hlow (by decide)

def growth (chunks : List Chunk) : Int :=
  (chunks.map fun ch => (ch.inserted.length : Int) - ch.deleted.length).sum

/-- The chunks that take others back: what was inserted is deleted, where it stands in the document that has
grown by so many lines before these chunks and by those that the chunks in front add. -/
def inverse (grown : Int) (chunks : List Chunk) : List Chunk :=
  chunks.mapIdx fun k ch => ⟨ch.index + (grown + growth (chunks.take k)), ch.inserted, ch.deleted⟩

section Inverse

variable {length start : Nat} {chunks : List Chunk} {doc rest out : List Line}

theorem inverse_cons (grown : Int) (ch : Chunk) (chunks : List Chunk) :
    inverse grown (ch :: chunks) = ⟨ch.index + grown, ch.inserted, ch.deleted⟩ ::
      inverse (grown + (ch.inserted.length - ch.deleted.length)) chunks := by
  simp [inverse, growth, List.mapIdx_cons, Int.add_assoc]

/-- Each chunk deletes lines that are there. -/
def Matches (doc : List Line) (chunks : List Chunk) : Prop :=
  ∀ ch ∈ chunks, (doc.drop ch.index.toNat).take ch.deleted.length = ch.deleted

instance (doc : List Line) (chunks : List Chunk) : Decidable (Matches doc chunks) :=
  inferInstanceAs (Decidable (∀ ch ∈ chunks, _ = ch.deleted))

theorem mem_of_spliceFrom (h : spliceFrom length start rest chunks = .ok out) {l : Line} (hl : l ∈ out) :
    l ∈ rest ∨ ∃ ch ∈ chunks, l ∈ ch.inserted := by
  induction chunks generalizing start rest out with
  | nil =>
    cases h
    exact .inl hl
  | cons ch chunks ih =>
    obtain ⟨-, -, tail, htail, rfl⟩ := spliceFrom_cons_eq_ok.1 h
    rcases List.mem_append.1 hl with hl | hl
    · rcases List.mem_append.1 hl with hl | hl
      · exact .inl (List.mem_of_mem_take hl)
      · exact .inr ⟨ch, List.mem_cons_self, hl⟩
    · rcases ih htail hl with hl | ⟨ch', hch', hl⟩
      · exact .inl (List.mem_of_mem_drop hl)
      · exact .inr ⟨ch', List.mem_cons_of_mem _ hch', hl⟩

theorem exists_parts {ch : Chunk}
    (h : spliceFrom doc.length start (doc.drop start) (ch :: chunks) = .ok out)
    (hch : (doc.drop ch.index.toNat).take ch.deleted.length = ch.deleted) :
    ∃ kept tail, ch.index = start + kept.length ∧
      let stop := start + kept.length + ch.deleted.length
      doc.drop start = kept ++ ch.deleted ++ doc.drop stop ∧ out = kept ++ ch.inserted ++ tail ∧
        spliceFrom doc.length stop (doc.drop stop) chunks = .ok tail := by
  obtain ⟨hlow, hhigh, tail, htail, rfl⟩ := spliceFrom_cons_eq_ok.1 h
  obtain ⟨k, hk⟩ : ∃ k, ch.index.toNat = start + k := ⟨ch.index.toNat - start, by omega⟩
  rw [hk] at hch htail ⊢
  rw [Nat.add_sub_cancel_left] at htail ⊢
  have hkept : ((doc.drop start).take k).length = k := by
    rw [List.length_take, List.length_drop]
    omega
  refine ⟨(doc.drop start).take k, tail, ?_, ?_, rfl, ?_⟩
  · rw [hkept]
    omega
  · have hrest : doc.drop (start + k) = ch.deleted ++ doc.drop (start + k + ch.deleted.length) := by
      have hcut := List.take_append_drop ch.deleted.length (doc.drop (start + k))
      rw [hch, List.drop_drop] at hcut
      exact hcut.symm
    rw [hkept, List.append_assoc, ← hrest, ← List.drop_drop]
    exact (List.take_append_drop k _).symm
  · rw [hkept]
    rw [List.drop_drop, ← Nat.add_assoc] at htail
    exact htail

theorem length_spliceFrom (h : spliceFrom doc.length start (doc.drop start) chunks = .ok out)
    (hm : Matches doc chunks) :
    out.length + (chunks.map fun ch => ch.deleted.length).sum =
      (doc.drop start).length + (chunks.map fun ch => ch.inserted.length).sum := by
  induction chunks generalizing start out with
  | nil =>
    cases h
    rfl
  | cons ch chunks ih =>
    obtain ⟨hch, hm⟩ := List.forall_mem_cons.1 hm
    obtain ⟨kept, tail, -, hdoc, rfl, htail⟩ := exists_parts h hch
    have hrest := ih htail hm
    rw [hdoc]
    simp only [List.length_append, List.map_cons, List.sum_cons]
    omega

/-- What chunks made of the lines of a document is turned into these lines again by the chunks that take
them back, wherever these lines have come to stand. -/
theorem spliceFrom_inverse {start' length' : Nat} {grown : Int}
    (h : spliceFrom doc.length start (doc.drop start) chunks = .ok out) (hm : Matches doc chunks)
    (hstart : (start' : Int) = start + grown) (hlength : start' + out.length = length') :
    spliceFrom length' start' out (inverse grown chunks) = .ok (doc.drop start) := by
  induction chunks generalizing start start' out grown with
  | nil =>
    cases h
    rfl
  | cons ch chunks ih =>
    obtain ⟨hch, hm⟩ := List.forall_mem_cons.1 hm
    obtain ⟨kept, tail, hindex, hdoc, rfl, htail⟩ := exists_parts h hch
    simp only [List.length_append] at hlength
    have hback : ch.index + grown = (start' + kept.length : Nat) := by omega
    have hrest : spliceFrom length' (start' + kept.length + ch.inserted.length) tail
        (inverse (grown + (ch.inserted.length - ch.deleted.length)) chunks) = .ok _ :=
      ih htail hm (by omega) (by omega)
    rw [inverse_cons, spliceFrom_cons_eq_ok]
    simp only [hback, Int.toNat_natCast, Nat.add_sub_cancel_left]
    refine ⟨by omega, by omega, doc.drop (start + kept.length + ch.deleted.length), ?_, ?_⟩
    · rw [List.append_assoc, List.drop_length_add_append, List.drop_left]
      exact hrest
    · rw [hdoc, List.append_assoc kept ch.inserted, List.take_left]

end Inverse

/-- Chunks that match the document and leave a line in it are taken back: the chunks with deleted and
inserted lines exchanged, moved by what those in front of them add, can be made in the new text, and give
the old one. -/
theorem apply_inverse {s t : Text} {chunks : List Chunk} (h : apply chunks t = .ok s)
    (hm : Matches t.lines chunks) (hinserted : ∀ ch ∈ chunks, ∀ l ∈ ch.inserted, '\n' ∉ l)
    (hleft : (chunks.map fun ch => ch.deleted.length).sum <
      t.lines.length + (chunks.map fun ch => ch.inserted.length).sum) :
    apply (inverse 0 chunks) s = .ok t := by
  obtain ⟨out, hout, rfl⟩ := Except.map_eq_ok.1 h
  have hlength : out.length + _ = (t.lines.drop 0).length + _ := length_spliceFrom hout hm
  have hne : out ≠ [] := by
    rintro rfl
    simp only [List.length_nil, List.drop_zero] at hlength
    omega
  have hlines : ∀ l ∈ out, '\n' ∉ l := by
    intro l hl
    rcases mem_of_spliceFrom hout hl with hl | ⟨ch, hch, hl⟩
    · exact Text.not_mem_of_mem_splitOn hl
    · exact hinserted ch hch l hl
  have hback : spliceFrom out.length 0 out (inverse 0 chunks) = .ok (t.lines.drop 0) :=
    spliceFrom_inverse hout hm rfl (Nat.zero_add _)
  rw [apply, Text.lines_ofLines hlines hne, splice, hback]
  exact congrArg Except.ok (Text.ofLines_lines t)

theorem apply_inverse_mixed :
    let t := "a\nb\nc\nd\ne".toList
    let s := "x\na\nd\np\nq\nr".toList
    let chunks : List Chunk := [⟨0, [], [['x']]⟩, ⟨1, [['b'], ['c']], []⟩, ⟨4, [['e']], [['p'], ['q'], ['r']]⟩]
    apply chunks t = .ok s ∧
      inverse 0 chunks = [⟨0, [['x']], []⟩, ⟨2, [], [['b'], ['c']]⟩, ⟨3, [['p'], ['q'], ['r']], [['e']]⟩] ∧
      apply (inverse 0 chunks) s = .ok t := by
  intro t s chunks
  have hmade : apply chunks t = .ok s := by decide +kernel
  exact ⟨hmade, by decide, apply_inverse hmade (by decide +kernel) (by decide) (by decide +kernel)⟩

end Chunk

end Emend
