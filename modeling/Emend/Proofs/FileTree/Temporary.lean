import Mathlib.Algebra.GroupWithZero.Nat
import Mathlib.Data.List.Nodup
import Emend.FileTree.Call
import Emend.Proofs.FileTree.Lookup

namespace Emend

namespace Text

def hexDigit (c : Char) : Nat := ((List.range 16).map Nat.digitChar).idxOf c

def hexValue (t : Text) : Nat := t.foldl (fun v c => 16 * v + hexDigit c) 0

theorem hexDigit_digitChar {d : Nat} (h : d < 16) : hexDigit d.digitChar = d := by
  revert d
  decide

theorem hexValue_concat (t : Text) (c : Char) : hexValue (t ++ [c]) = 16 * hexValue t + hexDigit c := by
  rw [hexValue, List.foldl_append]
  rfl

theorem hexValue_replicate_append (k : Nat) (t : Text) :
    hexValue (List.replicate k '0' ++ t) = hexValue t := by
  induction k with
  | zero => rfl
  | succ k ih => exact ih

theorem hexValue_toDigits (n : Nat) : hexValue (Nat.toDigits 16 n) = n := by
  induction n using Nat.strongRecOn with
  | ind n ih =>
    by_cases h : n < 16
    · rw [Nat.toDigits_of_lt_base h]
      have := hexDigit_digitChar h
      simpa [hexValue] using this
    · rw [Nat.toDigits_of_base_le (by decide) (Nat.not_lt.1 h), hexValue_concat, ih _ (by omega),
        hexDigit_digitChar (Nat.mod_lt _ (by decide))]
      omega

theorem hexDigits_injective {width m n : Nat} (h : hexDigits width m = hexDigits width n) : m = n := by
  have h := congrArg hexValue h
  simpa only [hexDigits, hexValue_replicate_append, hexValue_toDigits] using h

theorem mem_toDigits {n : Nat} {c : Char} (h : c ∈ Nat.toDigits 16 n) :
    ∃ d < 16, c = Nat.digitChar d := by
  induction n using Nat.strongRecOn with
  | ind n ih =>
    by_cases hn : n < 16
    · rw [Nat.toDigits_of_lt_base hn, List.mem_singleton] at h
      exact ⟨n, hn, h⟩
    · rw [Nat.toDigits_of_base_le (by decide) (Nat.not_lt.1 hn), List.mem_append,
        List.mem_singleton] at h
      obtain h | h := h
      · exact ih _ (by omega) h
      · exact ⟨_, Nat.mod_lt _ (by decide), h⟩

theorem length_hexDigits {width n : Nat} (hw : 0 < width) (h : n < 16 ^ width) :
    (hexDigits width n).length = width := by
  have hle := (Nat.length_toDigits_le_iff (by decide) hw).2 h
  simp only [hexDigits, List.length_append, List.length_replicate]
  omega

theorem size_encode_append (s t : Text) : (s ++ t).encode.size = s.encode.size + t.encode.size := by
  unfold encode
  rw [String.ofList_append]
  simp

theorem size_encode_cons (c : Char) (t : Text) :
    (encode (c :: t)).size = c.utf8Size + t.encode.size := by
  rw [← List.singleton_append, size_encode_append]
  simp [encode, List.utf8Encode_singleton]

theorem size_encode_of_ascii {t : Text} (h : ∀ c ∈ t, c.utf8Size = 1) : t.encode.size = t.length := by
  induction t with
  | nil => rfl
  | cons c t ih =>
    obtain ⟨hc, ht⟩ := List.forall_mem_cons.1 h
    rw [size_encode_cons, hc, ih ht, List.length_cons, Nat.add_comm]

end Text

namespace FileTree

def IsTemp (p : Path) : Prop := ∃ dir kind n, p = dir ++ [tempName kind n]

theorem tempName_eq (kind : TempKind) (n : Nat) :
    tempName kind n = ".v4a-".toList ++ Text.hexDigits 8 n ++ kind.ending := rfl

theorem tempName_injective {kind : TempKind} {m n : Nat} (h : tempName kind m = tempName kind n) :
    m = n := by
  rw [tempName_eq, tempName_eq] at h
  exact Text.hexDigits_injective (List.append_cancel_left (List.append_cancel_right h))

theorem tempName_kind {kind kind' : TempKind} {m n : Nat} (h : tempName kind m = tempName kind' n) :
    kind = kind' := by
  have hlast (kind : TempKind) (n : Nat) : (tempName kind n).getLast? = kind.ending.getLast? := by
    rw [tempName_eq, List.getLast?_append]
    cases kind <;> rfl
  have h := congrArg List.getLast? h
  rw [hlast, hlast] at h
  cases kind <;> cases kind' <;> first | rfl | cases h

theorem kind_eq_of_concat {kind kind' : TempKind} {m n : Nat} {dir dir' : Path}
    (h : dir ++ [tempName kind m] = dir' ++ [tempName kind' n]) : kind = kind' :=
  tempName_kind (List.singleton_inj.1 (List.append_inj' h rfl).2)

theorem plain_tempName (kind : TempKind) (n : Nat) : Path.Plain [tempName kind n] := by
  have hname : tempName kind n =
      '.' :: 'v' :: ("4a-".toList ++ Text.hexDigits 8 n ++ kind.ending) := rfl
  rw [hname]
  exact Path.plain_cons.2 ⟨⟨nofun, nofun, by simp⟩, Path.plain_nil⟩

theorem mem_tempName {kind : TempKind} {n : Nat} {c : Char} (h : c ∈ tempName kind n) :
    c ≠ '\x00' ∧ c.utf8Size = 1 := by
  have hall {t : Text} (ht : t.all fun c => c ≠ '\x00' ∧ c.utf8Size = 1) (hc : c ∈ t) :
      c ≠ '\x00' ∧ c.utf8Size = 1 := of_decide_eq_true (List.all_eq_true.1 ht c hc)
  simp only [tempName_eq, Text.hexDigits, List.mem_append] at h
  obtain (h | h | h) | h := h
  · exact hall (by decide) h
  · rw [(List.mem_replicate.1 h).2]
    decide
  · obtain ⟨d, hd, rfl⟩ := Text.mem_toDigits h
    clear hall h
    revert d
    decide
  · exact hall (by cases kind <;> decide) h

theorem hasNull_tempName (kind : TempKind) (n : Nat) : Path.hasNull [tempName kind n] = false := by
  have hnot : '\x00' ∉ tempName kind n := fun h => (mem_tempName h).1 rfl
  simpa [Path.hasNull] using hnot

theorem size_tempName (kind : TempKind) {n : Nat} (h : n < tempNames) :
    (tempName kind n).encode.size = 17 := by
  have hdigits : (Text.hexDigits 8 n).length = 8 := Text.length_hexDigits (by decide) h
  rw [Text.size_encode_of_ascii fun c hc => (mem_tempName hc).2]
  simp only [tempName_eq, List.length_append, hdigits]
  cases kind <;> rfl

theorem mem_names_of_get? {t : FileTree} {dir : Path} {n : Name}
    (h : (t.get? (dir ++ [n])).isSome) : n ∈ t.names dir := by
  rw [get?_of_ne_nil (by simp)] at h
  induction dir generalizing t with
  | nil =>
    obtain ⟨e, ts⟩ := t
    rw [names, List.mem_map]
    cases hl : ts.lookup n with
    | none =>
      simp only [List.nil_append, lookup, child, hl] at h
      cases h
    | some s =>
      obtain ⟨before, after, rfl, -⟩ := List.lookup_eq_some_iff.1 hl
      exact ⟨(n, s), by simp, rfl⟩
  | cons m dir ih =>
    obtain ⟨e, ts⟩ := t
    exact ih h

@[simp] theorem names_empty (p : Path) : empty.names p = [] := by
  induction p with
  | nil => rfl
  | cons n p ih => exact ih

theorem length_names_put (t : FileTree) (p : Path) (e : Entry) (dir : Path) :
    ((t.put p e).names dir).length ≤ (t.names dir).length + 1 := by
  induction p generalizing t dir with
  | nil =>
    obtain ⟨e', ts⟩ := t
    cases dir <;> simp [put, names, child]
  | cons n p ih =>
    obtain ⟨e', ts⟩ := t
    cases dir with
    | nil =>
      have := List.length_filter_le (fun c => decide (c.1 ≠ n)) ts
      simp only [put, names, List.map_cons, List.length_cons, List.length_map]
      omega
    | cons m dir =>
      rw [put, names, names, child_cons, child_filter]
      by_cases h : m = n
      · subst h
        rw [if_pos rfl]
        exact ih _ dir
      · rw [if_neg h, if_neg h]
        exact Nat.le_succ _

/-- Nothing keeps the temporary file with the number from being made in the directory. -/
structure Fresh (t : FileTree) (reserved : List Name) (dir : Path) (kind : TempKind) (n : Nat) : Prop where
  lt : n < tempNames
  unreserved : tempName kind n ∉ reserved
  free : t.get? (dir ++ [tempName kind n]) = none

/-- There are as many numbers left for temporary files in the directory. -/
def Spares (t : FileTree) (reserved : List Name) (dir : Path) (kind : TempKind) (k : Nat) : Prop :=
  ∃ l : List Nat, l.Nodup ∧ k ≤ l.length ∧ ∀ n ∈ l, t.Fresh reserved dir kind n

section Fresh

variable {t : FileTree} {reserved : List Name} {dir : Path} {kind : TempKind} {k n : Nat}

theorem Fresh.not_mem {ps : List Path} (h : t.Fresh reserved dir kind n)
    (hreserves : ∀ p ∈ ps, ∀ m ∈ p, m ∈ reserved) : dir ++ [tempName kind n] ∉ ps :=
  fun hmem => h.unreserved (hreserves _ hmem _ (by simp))

theorem length_le_of_not_fresh {l : List Nat} (hl : l.Nodup) (hlt : ∀ n ∈ l, n < tempNames)
    (hbusy : ∀ n ∈ l, ¬t.Fresh reserved dir kind n) :
    l.length ≤ (t.names dir).length + reserved.length := by
  have hnodup : (l.map (tempName kind)).Nodup :=
    List.Pairwise.map _ (fun i j hij he => hij (tempName_injective he)) hl
  have hsub : l.map (tempName kind) ⊆ t.names dir ++ reserved := by
    intro name hname
    obtain ⟨i, hi, rfl⟩ := List.mem_map.1 hname
    by_cases hr : tempName kind i ∈ reserved
    · exact List.mem_append_right _ hr
    · refine List.mem_append_left _ (mem_names_of_get? (Option.isSome_iff_ne_none.2 fun hn => ?_))
      exact hbusy i hi ⟨hlt i hi, hr, hn⟩
  have hle := hnodup.length_le_of_subset hsub
  rwa [List.length_map, List.length_append] at hle

theorem Spares.mono {k' : Nat} (h : t.Spares reserved dir kind k) (hle : k' ≤ k) :
    t.Spares reserved dir kind k' := by
  obtain ⟨l, hnodup, hlen, hl⟩ := h
  exact ⟨l, hnodup, Nat.le_trans hle hlen, hl⟩

theorem spares_of_names (h : (t.names dir).length + reserved.length + k ≤ tempNames) :
    t.Spares reserved dir kind k := by
  classical
  let fresh := (List.range tempNames).filter (t.Fresh reserved dir kind ·)
  let busy := (List.range tempNames).filter (¬t.Fresh reserved dir kind ·)
  have hall : tempNames = fresh.length + busy.length := by
    have hcount := List.length_eq_countP_add_countP (l := List.range tempNames) (t.Fresh reserved dir kind ·)
    simpa only [List.length_range, List.countP_eq_length_filter, decide_eq_true_eq] using hcount
  have hbusy : busy.length ≤ (t.names dir).length + reserved.length := by
    apply length_le_of_not_fresh (List.nodup_range.filter _)
    · exact fun n hn => List.mem_range.1 (List.mem_filter.1 hn).1
    · exact fun n hn => of_decide_eq_true (List.mem_filter.1 hn).2
  refine ⟨fresh, List.nodup_range.filter _, by omega, fun n hn => ?_⟩
  exact of_decide_eq_true (List.mem_filter.1 hn).2

theorem fresh_of_freeNumber (h : t.freeNumber reserved dir kind = some n) :
    t.Fresh reserved dir kind n := by
  have hfree := List.find?_some h
  obtain ⟨i, -, rfl⟩ := List.mem_map.1 (List.mem_of_find?_eq_some h)
  simp only [Bool.and_eq_true, Bool.not_eq_true', List.contains_eq_mem, decide_eq_false_iff_not,
    Option.isNone_iff_eq_none] at hfree
  exact ⟨Nat.mod_lt i (by decide), hfree.1, hfree.2⟩

/-- A number is found if there is one: more are tried than there are names that could be in their way, or
all of them. -/
theorem not_fresh_of_freeNumber (h : t.freeNumber reserved dir kind = none) (n : Nat) :
    ¬t.Fresh reserved dir kind n := by
  have hnames : tempNames = 4294967296 := rfl
  let k := (t.names dir).length + reserved.length
  let tried := (List.range' k (k + 1)).map (· % tempNames)
  have hlt : ∀ m ∈ tried, m < tempNames := by
    intro m hm
    obtain ⟨i, -, rfl⟩ := List.mem_map.1 hm
    exact Nat.mod_lt i (by decide)
  have htried : ∀ m ∈ tried, ¬t.Fresh reserved dir kind m := by
    intro m hm hfresh
    have hnot := List.find?_eq_none.1 h m hm
    simp [hfresh.unreserved, hfresh.free] at hnot
  by_cases hmany : tempNames ≤ k + 1
  · intro hfresh
    have hn := hfresh.lt
    refine htried n (List.mem_map.2 ⟨k + (n + tempNames - k % tempNames) % tempNames, ?_, ?_⟩) hfresh
    · rw [List.mem_range'_1]
      rw [hnames] at hmany ⊢
      omega
    · rw [hnames] at hn ⊢
      omega
  · have hnodup : tried.Nodup := by
      apply List.Nodup.map_on _ List.nodup_range'
      intro i hi j hj he
      have hi := List.mem_range'_1.1 hi
      have hj := List.mem_range'_1.1 hj
      rw [hnames] at hmany he
      omega
    have hle := length_le_of_not_fresh hnodup hlt htried
    rw [List.length_map, List.length_range'] at hle
    exact absurd hle (Nat.not_succ_le_self k)

end Fresh

end FileTree

end Emend
