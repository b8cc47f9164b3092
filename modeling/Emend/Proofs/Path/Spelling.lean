import Emend.Proofs.Ignore.Protection
import Emend.Proofs.Path
import Emend.Proofs.Text.Joined

namespace Emend

namespace Path

/-- The names that an absolute path text in normal form consists of. -/
structure Normal (p : Path) : Prop where
  plain : Plain p
  slash : ∀ n ∈ p, '/' ∉ n

variable {p q base : Path} {s t : Text} {n : Name}

/-- The path text one piece further on. A piece that starts with a slash would stand for itself. -/
def attach (t : Text) (piece : Name) : Text :=
  if piece.head? = some '/' ∨ t = [] then piece
  else if t.getLast? = some '/' then t ++ piece
  else t ++ '/' :: piece

def joined (t : Text) (pieces : List Name) : Text := pieces.foldl attach t

/-- The names that an absolute path text leads through, dots that stand for the directory itself left
out. -/
def entries (t : Text) : List Name := (pieces t).filter fun n => n ≠ [] ∧ n ≠ ['.']

def common : Path → Path → Path
  | m :: p, n :: q => if m = n then m :: common p q else []
  | _, _ => []

/-- The text that `t` names below the text `base`, as the tools of the system find it: the texts are
joined and made normal, and the result has to have all of `base` in common with it. -/
def below? (base t : Text) : Option Text :=
  let target := (RealPath.ofText (joined base (pieces t))).toText
  if (common (entries base) (entries target)).toText = base then some target else none

section Pieces

theorem pieces_append (s t : Text) : pieces (s ++ '/' :: t) = pieces s ++ pieces t := by
  have hs : pieces s ≠ [] := List.splitOn_ne_nil _ _
  have ht : pieces t ≠ [] := List.splitOn_ne_nil _ _
  have hjoin : s ++ '/' :: t = ['/'].intercalate (pieces s ++ pieces t) := by
    rw [Text.intercalate_append hs ht, intercalate_pieces, intercalate_pieces]
  have hslash : ∀ n ∈ pieces s ++ pieces t, '/' ∉ n := by
    intro n hn
    rcases List.mem_append.1 hn with hn | hn
    · exact Text.not_mem_of_mem_splitOn hn
    · exact Text.not_mem_of_mem_splitOn hn
  conv_lhs => rw [hjoin]
  exact List.splitOn_intercalate _ hslash (List.append_ne_nil_of_left_ne_nil hs _)

theorem pieces_slash (t : Text) : pieces ('/' :: t) = [] :: pieces t := pieces_append [] t

theorem pieces_of_not_mem (h : '/' ∉ n) : pieces n = [n] := List.splitOn_eq_singleton h

theorem walk_slash (p : Path) (t : Text) : p.walk (pieces ('/' :: t)) = p.walk (pieces t) := by
  rw [pieces_slash]
  rfl

theorem head?_intercalate (h : ∀ n ∈ p, n ≠ [] ∧ '/' ∉ n) :
    (['/'].intercalate p).head? ≠ some '/' := by
  cases p with
  | nil => exact nofun
  | cons n p =>
    obtain ⟨⟨hne, hslash⟩, -⟩ := List.forall_mem_cons.1 h
    obtain ⟨c, cs, rfl⟩ := List.exists_cons_of_ne_nil hne
    have hhead : (['/'].intercalate ((c :: cs) :: p)).head? = some c := by
      cases p <;> simp [List.intercalate_cons_cons]
    rw [hhead]
    rintro ⟨⟩
    exact hslash List.mem_cons_self

end Pieces

namespace Normal

theorem mono (h : p <+: q) (hq : Normal q) : Normal p :=
  ⟨hq.plain.mono h, fun n hn => hq.slash n (h.mem hn)⟩

theorem walk (h : Normal p) (t : Text) : Normal (p.walk (pieces t)) :=
  ⟨h.plain.walk _, forall_mem_walk h.slash fun _ hn => Text.not_mem_of_mem_splitOn hn⟩

theorem head?_intercalate (h : Normal p) : (['/'].intercalate p).head? ≠ some '/' :=
  Path.head?_intercalate fun n hn => ⟨(h.plain n hn).1, h.slash n hn⟩

theorem walk_intercalate (h : Normal p) (q : Path) : q.walk (pieces (['/'].intercalate p)) = q ++ p := by
  by_cases hp : p = []
  · rw [hp, List.append_nil]
    rfl
  · rw [pieces, List.splitOn_intercalate _ h.slash hp, h.plain.walk_eq]

theorem entries_toText (h : Normal p) : entries p.toText = p := by
  rw [entries, toText, pieces_slash]
  by_cases hp : p = []
  · rw [hp]
    rfl
  · rw [pieces, List.splitOn_intercalate _ h.slash hp, List.filter_cons_of_neg (by simp),
      List.filter_eq_self]
    exact fun n hn => by simpa using ⟨(h.plain n hn).1, (h.plain n hn).2.1⟩

end Normal

def Single (t : Text) : Prop := ∃ r, t = '/' :: r ∧ r.head? ≠ some '/'

theorem Normal.single (h : Normal p) : Single p.toText := ⟨_, rfl, h.head?_intercalate⟩

theorem Single.ne_nil (h : Single t) : t ≠ [] := by
  obtain ⟨r, rfl, -⟩ := h
  exact List.cons_ne_nil _ _

theorem Single.ofText_eq (h : Single t) : RealPath.ofText t = ⟨walk [] (pieces t), false⟩ := by
  obtain ⟨r, rfl, hr⟩ := h
  rw [RealPath.ofText, pieces_slash]
  unfold RealPath.join
  split
  · next hcons =>
    -- A second empty piece would come from a second slash.
    refine absurd ?_ hr
    rw [← intercalate_pieces r, (List.cons.inj hcons).2]
    simp [List.intercalate_cons_cons]
  · rfl
  · next hnot =>
    obtain ⟨n, ns, hcons⟩ := List.exists_cons_of_ne_nil (List.splitOn_ne_nil '/' r)
    exact absurd (congrArg ([] :: ·) hcons) (hnot n ns)

theorem Normal.ofText_toText (h : Normal p) : RealPath.ofText p.toText = ⟨p, false⟩ := by
  rw [h.single.ofText_eq, toText, walk_slash, h.walk_intercalate, List.nil_append]

theorem Normal.toText_inj (hp : Normal p) (hq : Normal q) (h : p.toText = q.toText) : p = q := by
  have hsame := congrArg RealPath.ofText h
  rw [hp.ofText_toText, hq.ofText_toText] at hsame
  exact congrArg RealPath.path hsame

section Attach

theorem walk_attach (p : Path) (hs : s ≠ []) (hn : '/' ∉ n) :
    p.walk (pieces (attach s n)) = (p.walk (pieces s)).step n := by
  have hhead : n.head? ≠ some '/' := fun h => hn (List.mem_of_head? h)
  have hlast (t : Text) : p.walk (pieces (t ++ '/' :: n)) = (p.walk (pieces t)).step n := by
    rw [pieces_append, walk_append, pieces_of_not_mem hn]
    rfl
  rw [attach, if_neg (by simp [hhead, hs])]
  split
  · next hend =>
    obtain ⟨t, rfl⟩ := List.getLast?_eq_some_iff.1 hend
    rw [List.append_assoc, List.singleton_append, hlast, pieces_append, walk_append]
    rfl
  · exact hlast s

theorem Single.attach (h : Single s) (hn : '/' ∉ n) : Single (attach s n) := by
  obtain ⟨r, rfl, hr⟩ := h
  have hhead : n.head? ≠ some '/' := fun h => hn (List.mem_of_head? h)
  rw [Path.attach, if_neg (by simp [hhead])]
  split
  · refine ⟨r ++ n, rfl, ?_⟩
    cases r with
    | nil => exact hhead
    | cons c r => exact hr
  · next hend =>
    refine ⟨r ++ '/' :: n, rfl, ?_⟩
    cases r with
    | nil => exact absurd rfl hend
    | cons c r => exact hr

theorem Single.joined {ns : List Name} (h : Single s) (hns : ∀ n ∈ ns, '/' ∉ n) :
    Single (joined s ns) ∧ walk [] (pieces (joined s ns)) = (walk [] (pieces s)).walk ns := by
  induction ns generalizing s with
  | nil => exact ⟨h, rfl⟩
  | cons n ns ih =>
    obtain ⟨hn, hns⟩ := List.forall_mem_cons.1 hns
    obtain ⟨hsingle, hwalk⟩ := ih (h.attach hn) hns
    refine ⟨hsingle, ?_⟩
    rw [walk_cons, ← walk_attach [] h.ne_nil hn]
    exact hwalk

end Attach

theorem Normal.ofText_joined (h : Normal base) (t : Text) :
    RealPath.ofText (joined base.toText (pieces t)) = ⟨base.walk (pieces t), false⟩ := by
  have hslash : ∀ n ∈ pieces t, '/' ∉ n := fun _ hn => Text.not_mem_of_mem_splitOn hn
  obtain ⟨hsingle, hwalk⟩ := h.single.joined hslash
  rw [hsingle.ofText_eq, hwalk, toText, walk_slash, h.walk_intercalate, List.nil_append]

theorem common_isPrefix (p q : Path) : common p q <+: p := by
  fun_induction common p q with
  | case1 p n q ih => exact (List.prefix_cons_inj n).2 ih
  | case2 => exact List.nil_prefix
  | case3 => exact List.nil_prefix

theorem common_eq_left_iff (p q : Path) : common p q = p ↔ p <+: q := by
  fun_induction common p q with
  | case1 p n q ih => rw [List.prefix_cons_inj, ← ih, List.cons_inj_right]
  | case2 m p n q hne => simp [hne]
  | case3 p q hnot =>
    cases p with
    | nil => simp
    | cons m p =>
      cases q with
      | nil => simp
      | cons n q => exact absurd rfl (hnot m p n q rfl)

/-- The tools find the path that the pieces lead to, if the base is where it starts. -/
theorem Normal.below?_toText (h : Normal base) (t : Text) :
    below? base.toText t = (resolve? base t).map toText := by
  have hfinal : Normal (base.walk (pieces t)) := h.walk t
  have htarget : (RealPath.ofText (joined base.toText (pieces t))).toText =
      (base.walk (pieces t)).toText := congrArg RealPath.toText (h.ofText_joined t)
  have hcommon : (common base (base.walk (pieces t))).toText = base.toText ↔
      Within base (base.walk (pieces t)) := by
    rw [Within, ← common_eq_left_iff]
    exact ⟨(h.mono (common_isPrefix _ _)).toText_inj h, congrArg toText⟩
  simp only [below?, htarget, h.entries_toText, hfinal.entries_toText, hcommon, resolve?]
  by_cases hin : Within base (base.walk (pieces t))
  · rw [if_pos hin, if_pos hin]
    rfl
  · rw [if_neg hin, if_neg hin]
    rfl

theorem below?_doubled (base t : Text) : below? ('/' :: '/' :: base) t = none := by
  refine if_neg fun hcommon => ?_
  have hnames : ∀ n ∈ common (entries ('/' :: '/' :: base))
      (entries (RealPath.ofText (joined ('/' :: '/' :: base) (pieces t))).toText), n ≠ [] ∧ '/' ∉ n := by
    intro n hn
    obtain ⟨hpiece, hplain⟩ := List.mem_filter.1 ((common_isPrefix _ _).mem hn)
    exact ⟨(of_decide_eq_true hplain).1, Text.not_mem_of_mem_splitOn hpiece⟩
  refine head?_intercalate hnames ?_
  rw [(List.cons.inj hcommon).2]
  rfl

end Path

namespace RealPath

variable {b : RealPath}

/-- What is resolved is what the tools of the system find. -/
theorem below?_toText (h : b.path.Normal) (t : Text) :
    Path.below? b.toText t = (b.resolve? t).map Path.toText := by
  unfold toText resolve?
  split
  · exact Path.below?_doubled _ t
  · exact h.below?_toText t

end RealPath

namespace Path

variable {base p : Path} {t : Text}

theorem resolve?_slash (base : Path) (t : Text) : resolve? base ('/' :: t) = resolve? base t := by
  unfold resolve?
  rw [walk_slash]

theorem resolve?_eq_none : resolve? base t = none ↔ ¬base <+: base.walk (pieces t) := by
  simp only [resolve?, ite_eq_right_iff, reduceCtorEq, imp_false]
  exact Iff.rfl

theorem not_prefix_of_toText {final : Path} {more : Text} (hbase : base ≠ []) (hmore : more ≠ [])
    (hslash : more.head? ≠ some '/') (h : final.toText = base.toText ++ more) : ¬base <+: final := by
  rintro ⟨below, rfl⟩
  by_cases hbelow : below = []
  · rw [hbelow, List.append_nil, List.self_eq_append_right] at h
    exact hmore h
  · have hgoes : (base ++ below).toText = base.toText ++ '/' :: ['/'].intercalate below :=
      congrArg ('/' :: ·) (Text.intercalate_append hbase hbelow)
    rw [hgoes, List.append_cancel_left_eq] at h
    rw [← h] at hslash
    exact hslash rfl

theorem Normal.resolve?_relative (h : Normal base) (hp : resolve? base t = some p) :
    resolve? base (relative base p) = some p := by
  obtain ⟨hin, rfl⟩ := resolve?_eq_some.1 hp
  have hfinal : Normal (base.walk (pieces t)) := h.walk t
  refine resolve?_eq_some.2 ⟨hin, ?_⟩
  obtain ⟨below, hbelow⟩ := hin
  rw [← hbelow] at hfinal ⊢
  have hnormal : Normal below :=
    ⟨(plain_append.1 hfinal.plain).2, fun n hn => hfinal.slash n (List.mem_append_right _ hn)⟩
  unfold relative
  split
  · next hself =>
    rw [hself]
    rfl
  · rw [List.drop_left, hnormal.walk_intercalate]

end Path

/-- A text names the path that its pieces lead to from the base, exactly if that one starts with the
base; this is what the tools of the system find as well. A slash at the start makes no difference, a
path beside the base is refused even if the base's text starts its own, and a path that is found is
found again by its text from the base on. -/
theorem RealPath.resolve?_exact {base : Path} (h : base.Normal) (t : Text) :
    let final := base.walk (Path.pieces t)
    let found (t : Text) : Option Text := ((ofText base.toText).resolve? t).map Path.toText
    (found t = none ↔ ¬base <+: final) ∧ (base <+: final → found t = some final.toText) ∧
      found t = Path.below? base.toText t ∧ found ('/' :: t) = found t ∧
      (∀ more, base ≠ [] → more ≠ [] → more.head? ≠ some '/' →
        final.toText = base.toText ++ more → found t = none) ∧
      (base <+: final → found (Path.relative base final) = found t) := by
  intro final found
  have hfound (t : Text) : found t = (Path.resolve? base t).map Path.toText := by
    show ((ofText base.toText).resolve? t).map Path.toText = _
    rw [h.ofText_toText]
    rfl
  have hnone : found t = none ↔ ¬base <+: final := by
    rw [hfound, Option.map_eq_none_iff]
    exact Path.resolve?_eq_none
  refine ⟨hnone, fun hin => ?_, ?_, ?_, fun more hbase hmore hslash htext => ?_, fun hin => ?_⟩
  · rw [hfound, Path.resolve?_eq_some.2 ⟨hin, rfl⟩]
    rfl
  · rw [hfound]
    exact (below?_toText (b := ⟨base, false⟩) h t).symm
  · rw [hfound, hfound, Path.resolve?_slash]
  · exact hnone.2 (Path.not_prefix_of_toText hbase hmore hslash htext)
  · have hsome : Path.resolve? base t = some final := Path.resolve?_eq_some.2 ⟨hin, rfl⟩
    rw [hfound, hfound, hsome, h.resolve?_relative hsome]

theorem RealPath.resolve?_exact_samples :
    let base : Path := [['a'], ['b']]
    let found (t : Text) : Option Text := ((ofText base.toText).resolve? t).map Path.toText
    base.Normal ∧ found "/../../../../a/./b//c/".toList = some "/a/b/c".toList ∧
      found "../bx".toList = none := by
  intro base found
  have hbase : base.Normal := ⟨by unfold Path.Plain; decide, by decide⟩
  have hin : base <+: base.walk (Path.pieces "/../../../../a/./b//c/".toList) := by decide +kernel
  have htext : (base.walk (Path.pieces "../bx".toList)).toText = base.toText ++ ['x'] := by
    decide +kernel
  obtain ⟨-, hfound, -⟩ := resolve?_exact hbase "/../../../../a/./b//c/".toList
  obtain ⟨-, -, -, -, hbeside, -⟩ := resolve?_exact hbase "../bx".toList
  exact ⟨hbase, hfound hin, hbeside ['x'] (by decide) (by decide) (by decide) htext⟩

end Emend
