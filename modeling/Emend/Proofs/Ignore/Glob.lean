import Emend.Ignore.Glob

namespace Emend

namespace Ends

def Marks (es : Ends) (front : Text) : Prop := es[front.length]? = some true

variable {kind : Char → Bool} {on e : Bool} {es fs : Ends} {t front rest : Text} {c : Char}

@[simp] theorem marks_cons_nil : Marks (e :: es) [] ↔ e = true := by
  simp [Marks]

@[simp] theorem marks_cons_cons : Marks (e :: es) (c :: front) ↔ es.Marks front := by
  simp [Marks]

theorem contains_iff_marks (hlen : es.length = t.length + 1) :
    es.contains true = true ↔ ∃ front rest, t = front ++ rest ∧ es.Marks front := by
  rw [List.contains_iff_mem, List.mem_iff_getElem?]
  constructor
  · rintro ⟨i, hi⟩
    have hle : i ≤ t.length := by
      have hlt := (List.getElem?_eq_some_iff.1 hi).1
      omega
    refine ⟨t.take i, t.drop i, (List.take_append_drop i t).symm, ?_⟩
    rwa [Marks, List.length_take, Nat.min_eq_left hle]
  · rintro ⟨front, rest, -, hmarks⟩
    exact ⟨_, hmarks⟩

@[simp] theorem length_start (t : Text) : (start t).length = t.length + 1 := by
  simp [start]

theorem start_marks (t front : Text) : (start t).Marks front ↔ front = [] := by
  cases front with
  | nil => simp [start]
  | cons c front =>
    rw [start, marks_cons_cons, Marks, List.getElem?_map]
    cases t[front.length]? <;> simp

theorem length_one (hlen : es.length = t.length + 1) : (one kind on t es).length = t.length + 1 := by
  induction t generalizing on es with
  | nil => cases es <;> rfl
  | cons c t ih =>
    cases es with
    | nil => cases hlen
    | cons e es => exact congrArg (· + 1) (ih (Nat.succ.inj hlen))

theorem one_marks (hlen : es.length = t.length + 1) (h : t = front ++ rest) :
    (one kind on t es).Marks front ↔
      front = [] ∧ on = true ∨ ∃ front' c, front = front' ++ [c] ∧ kind c = true ∧ es.Marks front' := by
  induction front generalizing t on es with
  | nil =>
    have hone : ∃ more, one kind on t es = on :: more := by
      cases t with
      | nil => exact ⟨[], by cases es <;> rfl⟩
      | cons c t =>
        cases es with
        | nil => cases hlen
        | cons e es => exact ⟨_, rfl⟩
    obtain ⟨more, hmore⟩ := hone
    simp [hmore]
  | cons c front ih =>
    subst h
    cases es with
    | nil => cases hlen
    | cons e es =>
      rw [List.cons_append, one, marks_cons_cons]
      refine (ih (Nat.succ.inj hlen) rfl).trans ?_
      constructor
      · rintro (⟨rfl, hon⟩ | ⟨front', d, rfl, hd, hmarks⟩)
        · obtain ⟨he, hc⟩ := Bool.and_eq_true_iff.1 hon
          exact .inr ⟨[], c, rfl, hc, marks_cons_nil.2 he⟩
        · exact .inr ⟨c :: front', d, rfl, hd, marks_cons_cons.2 hmarks⟩
      · rintro (⟨⟨⟩, -⟩ | ⟨front', d, hfront, hd, hmarks⟩)
        cases front' with
        | nil =>
          cases hfront
          exact .inl ⟨rfl, Bool.and_eq_true_iff.2 ⟨marks_cons_nil.1 hmarks, hd⟩⟩
        | cons c' front' =>
          cases hfront
          exact .inr ⟨front', d, rfl, hd, marks_cons_cons.1 hmarks⟩

theorem length_many (hlen : es.length = t.length + 1) : (many kind on t es).length = t.length + 1 := by
  induction t generalizing on es with
  | nil => rfl
  | cons c t ih =>
    cases es with
    | nil => cases hlen
    | cons e es => exact congrArg (· + 1) (ih (Nat.succ.inj hlen))

theorem many_marks (hlen : es.length = t.length + 1) (h : t = front ++ rest) :
    (many kind on t es).Marks front ↔
      on = true ∧ front.all kind = true ∨
        ∃ front' mid, front = front' ++ mid ∧ mid.all kind = true ∧ es.Marks front' := by
  have hnone {es : Ends} : (∃ front' mid, [] = front' ++ mid ∧ mid.all kind = true ∧ es.Marks front') ↔
      es.Marks [] := by
    constructor
    · rintro ⟨front', mid, hnil, -, hmarks⟩
      obtain ⟨rfl, -⟩ := List.append_eq_nil_iff.1 hnil.symm
      exact hmarks
    · exact fun hmarks => ⟨[], [], rfl, rfl, hmarks⟩
  induction front generalizing t on es with
  | nil =>
    obtain ⟨e, es, rfl⟩ : ∃ e es', es = e :: es' := by
      cases es with
      | nil => cases hlen
      | cons e es => exact ⟨e, es, rfl⟩
    have hmany : ∃ more, many kind on t (e :: es) = (on || e) :: more := by
      cases t with
      | nil =>
        obtain rfl : es = [] := List.eq_nil_of_length_eq_zero (Nat.succ.inj hlen)
        exact ⟨[], by simp [many]⟩
      | cons c t => exact ⟨_, rfl⟩
    obtain ⟨more, hmore⟩ := hmany
    rw [hmore, marks_cons_nil, hnone, marks_cons_nil, Bool.or_eq_true, List.all_nil]
    simp
  | cons c front ih =>
    subst h
    cases es with
    | nil => cases hlen
    | cons e es =>
      rw [List.cons_append, many, marks_cons_cons]
      refine (ih (Nat.succ.inj hlen) rfl).trans ?_
      rw [Bool.and_eq_true, Bool.or_eq_true, List.all_cons, Bool.and_eq_true]
      constructor
      · rintro (⟨⟨hon | he, hc⟩, hall⟩ | ⟨front', mid, rfl, hall, hmarks⟩)
        · exact .inl ⟨hon, hc, hall⟩
        · exact .inr ⟨[], c :: front, rfl, by rw [List.all_cons, hc, hall]; rfl, marks_cons_nil.2 he⟩
        · exact .inr ⟨c :: front', mid, rfl, hall, marks_cons_cons.2 hmarks⟩
      · rintro (⟨hon, hc, hall⟩ | ⟨front', mid, hfront, hall, hmarks⟩)
        · exact .inl ⟨⟨.inl hon, hc⟩, hall⟩
        · cases front' with
          | nil =>
            obtain rfl : c :: front = mid := hfront
            obtain ⟨hc, hall⟩ := Bool.and_eq_true_iff.1 (List.all_cons.symm.trans hall)
            exact .inl ⟨⟨.inr (marks_cons_nil.1 hmarks), hc⟩, hall⟩
          | cons c' front' =>
            cases hfront
            exact .inr ⟨front', mid, rfl, hall, marks_cons_cons.1 hmarks⟩

theorem either_marks (hes : es.length = t.length + 1) (hfs : fs.length = t.length + 1)
    (h : t = front ++ rest) : (es.either fs).Marks front ↔ es.Marks front ∨ fs.Marks front := by
  have hlt : front.length < t.length + 1 := by
    rw [h, List.length_append]
    omega
  unfold Marks either
  rw [List.getElem?_zipWith, List.getElem?_eq_getElem (hes ▸ hlt), List.getElem?_eq_getElem (hfs ▸ hlt)]
  simp

theorem length_atEnd (hlen : es.length = t.length + 1) : (es.atEnd t).length = t.length + 1 := by
  fun_induction atEnd es t with
  | case1 es => exact hlen
  | case2 es => exact hlen
  | case3 es c t hne ih => exact congrArg (· + 1) (ih (by rw [List.length_tail, hlen]; rfl))

theorem atEnd_marks (hlen : es.length = t.length + 1) (h : t = front ++ rest) :
    (es.atEnd t).Marks front ↔ es.Marks front ∧ (rest = [] ∨ rest = ['\n']) := by
  fun_induction atEnd es t generalizing front with
  | case1 es =>
    obtain ⟨rfl, rfl⟩ := List.append_eq_nil_iff.1 h.symm
    simp
  | case2 es =>
    have hrest : rest = [] ∨ rest = ['\n'] := by
      cases front with
      | nil => exact .inr h.symm
      | cons c front => exact .inl (List.append_eq_nil_iff.1 (List.cons.inj h).2.symm).2
    exact ⟨fun hmarks => ⟨hmarks, hrest⟩, And.left⟩
  | case3 es c t hne ih =>
    cases es with
    | nil => cases hlen
    | cons e es =>
      cases front with
      | nil =>
        rw [marks_cons_nil]
        refine ⟨nofun, fun ⟨_, hrest⟩ => ?_⟩
        obtain rfl : c :: t = rest := h
        obtain hrest | hrest := hrest
        · cases hrest
        · obtain ⟨rfl, rfl⟩ := List.cons.inj hrest
          exact absurd rfl (hne rfl)
      | cons c' front =>
        rw [marks_cons_cons, marks_cons_cons]
        exact ih (Nat.succ.inj hlen) (List.cons.inj h).2

end Ends

namespace Atom

def Takes (rest mid : Text) : Atom → Prop
  | literal c => mid = [c]
  | anyInName => ∃ c, mid = [c] ∧ c ≠ '/'
  | runInName => '/' ∉ mid
  | oneOf negated ranges => ∃ c, mid = [c] ∧ ranges.any (isIn c) ≠ negated
  | leadingDirs => mid = [] ∨ ∃ dirs, dirs ≠ [] ∧ '\n' ∉ dirs ∧ mid = dirs ++ ['/']
  | innerDirs => mid = [] ∨ ∃ below, below ≠ [] ∧ '\n' ∉ below ∧ mid = '/' :: below
  | nameEnd => mid = ['/'] ∨ mid = [] ∧ (rest = [] ∨ rest = ['\n'])

/-- The text starts with stretches that the atoms take one after another. -/
inductive Matches : List Atom → Text → Prop
  | nil (t : Text) : Matches [] t
  | cons {a : Atom} {as : List Atom} {mid rest : Text} (ha : a.Takes rest mid) (has : Matches as rest) :
    Matches (a :: as) (mid ++ rest)

end Atom

/-- From the ends of some matches the step comes to the ends of those that go on over a stretch of the
kind `takes`, which is told what follows. -/
def Sweeps (t : Text) (step : Ends → Ends) (takes : Text → Text → Prop) : Prop :=
  ∀ es : Ends, es.length = t.length + 1 → (step es).length = t.length + 1 ∧
    ∀ front rest, t = front ++ rest →
      ((step es).Marks front ↔ ∃ front' mid, front = front' ++ mid ∧ es.Marks front' ∧ takes rest mid)

namespace Sweeps

variable {t : Text} {step step' : Ends → Ends} {takes takes' : Text → Text → Prop}

theorem one (t : Text) (kind : Char → Bool) :
    Sweeps t (Ends.one kind false t) fun _ mid => ∃ c, mid = [c] ∧ kind c = true := by
  refine fun es hlen => ⟨Ends.length_one hlen, fun front rest h => (Ends.one_marks hlen h).trans ?_⟩
  constructor
  · rintro (⟨-, ⟨⟩⟩ | ⟨front', c, rfl, hc, hmarks⟩)
    exact ⟨front', [c], rfl, hmarks, c, rfl, hc⟩
  · rintro ⟨front', _, rfl, hmarks, c, rfl, hc⟩
    exact .inr ⟨front', c, rfl, hc, hmarks⟩

theorem many (t : Text) (kind : Char → Bool) :
    Sweeps t (Ends.many kind false t) fun _ mid => mid.all kind = true := by
  refine fun es hlen => ⟨Ends.length_many hlen, fun front rest h => (Ends.many_marks hlen h).trans ?_⟩
  constructor
  · rintro (⟨⟨⟩, -⟩ | ⟨front', mid, rfl, hmid, hmarks⟩)
    exact ⟨front', mid, rfl, hmarks, hmid⟩
  · rintro ⟨front', mid, rfl, hmarks, hmid⟩
    exact .inr ⟨front', mid, rfl, hmid, hmarks⟩

theorem atEnd (t : Text) :
    Sweeps t (fun es => es.atEnd t) fun rest mid => mid = [] ∧ (rest = [] ∨ rest = ['\n']) := by
  refine fun es hlen => ⟨Ends.length_atEnd hlen, fun front rest h => (Ends.atEnd_marks hlen h).trans ?_⟩
  constructor
  · rintro ⟨hmarks, hrest⟩
    exact ⟨front, [], (List.append_nil front).symm, hmarks, rfl, hrest⟩
  · rintro ⟨front', _, rfl, hmarks, rfl, hrest⟩
    exact ⟨(List.append_nil front').symm ▸ hmarks, hrest⟩

theorem stay (t : Text) : Sweeps t (fun es => es) fun _ mid => mid = [] := by
  refine fun es hlen => ⟨hlen, fun front rest h => ⟨fun hmarks => ?_, ?_⟩⟩
  · exact ⟨front, [], (List.append_nil front).symm, hmarks, rfl⟩
  · rintro ⟨front', _, rfl, hmarks, rfl⟩
    exact (List.append_nil front').symm ▸ hmarks

theorem either (h : Sweeps t step takes) (h' : Sweeps t step' takes') :
    Sweeps t (fun es => (step es).either (step' es)) fun rest mid => takes rest mid ∨ takes' rest mid := by
  intro es hlen
  obtain ⟨hstep, hmarks⟩ := h es hlen
  obtain ⟨hstep', hmarks'⟩ := h' es hlen
  have hlen' : ((step es).either (step' es)).length = t.length + 1 := by
    rw [Ends.either, List.length_zipWith, hstep, hstep', Nat.min_self]
  refine ⟨hlen', fun front rest ht => (Ends.either_marks hstep hstep' ht).trans ?_⟩
  rw [hmarks front rest ht, hmarks' front rest ht]
  constructor
  · rintro (⟨front', mid, hfront, hm, htakes⟩ | ⟨front', mid, hfront, hm, htakes⟩)
    · exact ⟨front', mid, hfront, hm, .inl htakes⟩
    · exact ⟨front', mid, hfront, hm, .inr htakes⟩
  · rintro ⟨front', mid, hfront, hm, htakes | htakes⟩
    · exact .inl ⟨front', mid, hfront, hm, htakes⟩
    · exact .inr ⟨front', mid, hfront, hm, htakes⟩

theorem andThen (h : Sweeps t step takes) (h' : Sweeps t step' takes') :
    Sweeps t (fun es => step' (step es)) fun rest mid =>
      ∃ mid' mid'', mid = mid' ++ mid'' ∧ takes (mid'' ++ rest) mid' ∧ takes' rest mid'' := by
  intro es hlen
  obtain ⟨hstep, hmarks⟩ := h es hlen
  obtain ⟨hstep', hmarks'⟩ := h' (step es) hstep
  refine ⟨hstep', fun front rest ht => (hmarks' front rest ht).trans ?_⟩
  constructor
  · rintro ⟨front', mid'', rfl, hm, htakes'⟩
    rw [List.append_assoc] at ht
    obtain ⟨front'', mid', rfl, hm, htakes⟩ := (hmarks front' _ ht).1 hm
    exact ⟨front'', mid' ++ mid'', List.append_assoc _ _ _, hm, mid', mid'', rfl, htakes, htakes'⟩
  · rintro ⟨front'', _, rfl, hm, mid', mid'', rfl, htakes, htakes'⟩
    rw [← List.append_assoc, List.append_assoc] at ht
    exact ⟨front'' ++ mid', mid'', (List.append_assoc _ _ _).symm,
      (hmarks _ _ ht).2 ⟨front'', mid', rfl, hm, htakes⟩, htakes'⟩

theorem congr (h : Sweeps t step takes) (hiff : ∀ rest mid, takes rest mid ↔ takes' rest mid) :
    Sweeps t step takes' := by
  intro es hlen
  obtain ⟨hstep, hmarks⟩ := h es hlen
  refine ⟨hstep, fun front rest ht => (hmarks front rest ht).trans ?_⟩
  simp only [hiff]

end Sweeps

namespace Atom

theorem all_ne_iff {c : Char} {mid : Text} : (mid.all fun d => d ≠ c) = true ↔ c ∉ mid := by
  rw [List.all_eq_true]
  refine ⟨fun hall hmem => ?_, fun hnot d hd => decide_eq_true fun he => hnot (he ▸ hd)⟩
  exact of_decide_eq_true (hall c hmem) rfl

theorem sweeps (a : Atom) (t : Text) : Sweeps t (a.ends t) fun rest mid => a.Takes rest mid := by
  have hslash : Sweeps t (Ends.one (· = '/') false t) fun _ mid => mid = ['/'] :=
    (Sweeps.one t _).congr fun rest mid => by simp
  -- One character that ends no line and any number more are a stretch of at least one.
  have hline : Sweeps t (fun es => Ends.many (· ≠ '\n') false t (Ends.one (· ≠ '\n') false t es))
      fun _ mid => mid ≠ [] ∧ '\n' ∉ mid := by
    refine ((Sweeps.one t _).andThen (Sweeps.many t _)).congr fun rest mid => ⟨?_, ?_⟩
    · rintro ⟨_, mid, rfl, ⟨c, rfl, hc⟩, hmid⟩
      exact ⟨nofun, List.not_mem_cons_of_ne_of_not_mem (of_decide_eq_true hc).symm (all_ne_iff.1 hmid)⟩
    · rintro ⟨hne, hmid⟩
      obtain ⟨c, mid, rfl⟩ := List.exists_cons_of_ne_nil hne
      rw [List.mem_cons, not_or] at hmid
      exact ⟨[c], mid, rfl, ⟨c, rfl, decide_eq_true (Ne.symm hmid.1)⟩, all_ne_iff.2 hmid.2⟩
  cases a with
  | literal c => exact (Sweeps.one t _).congr fun rest mid => by simp [Takes]
  | anyInName => exact (Sweeps.one t _).congr fun rest mid => by simp [Takes]
  | runInName => exact (Sweeps.many t _).congr fun rest mid => all_ne_iff
  | oneOf negated ranges => exact (Sweeps.one t _).congr fun rest mid => by simp [Takes]
  | leadingDirs =>
    refine ((Sweeps.stay t).either (hline.andThen hslash)).congr fun rest mid => or_congr_right ⟨?_, ?_⟩
    · rintro ⟨dirs, _, rfl, ⟨hne, hdirs⟩, rfl⟩
      exact ⟨dirs, hne, hdirs, rfl⟩
    · rintro ⟨dirs, hne, hdirs, rfl⟩
      exact ⟨dirs, ['/'], rfl, ⟨hne, hdirs⟩, rfl⟩
  | innerDirs =>
    refine ((Sweeps.stay t).either (hslash.andThen hline)).congr fun rest mid => or_congr_right ⟨?_, ?_⟩
    · rintro ⟨_, below, rfl, rfl, hne, hbelow⟩
      exact ⟨below, hne, hbelow, rfl⟩
    · rintro ⟨below, hne, hbelow, rfl⟩
      exact ⟨['/'], below, rfl, rfl, hne, hbelow⟩
  | nameEnd => exact hslash.either (Sweeps.atEnd t)

theorem contains_foldl_ends {as : List Atom} {t : Text} {es : Ends} (hlen : es.length = t.length + 1) :
    (as.foldl (fun es a => a.ends t es) es).contains true = true ↔
      ∃ front rest, t = front ++ rest ∧ es.Marks front ∧ Matches as rest := by
  induction as generalizing es with
  | nil =>
    rw [List.foldl_nil, Ends.contains_iff_marks hlen]
    constructor
    · rintro ⟨front, rest, ht, hmarks⟩
      exact ⟨front, rest, ht, hmarks, .nil rest⟩
    · rintro ⟨front, rest, ht, hmarks, -⟩
      exact ⟨front, rest, ht, hmarks⟩
  | cons a as ih =>
    obtain ⟨hends, hmarks⟩ := a.sweeps t es hlen
    rw [List.foldl_cons, ih hends]
    constructor
    · rintro ⟨front, rest, ht, hm, hmatches⟩
      obtain ⟨front, mid, rfl, hm, htakes⟩ := (hmarks front rest ht).1 hm
      exact ⟨front, mid ++ rest, ht.trans (List.append_assoc _ _ _), hm, .cons htakes hmatches⟩
    · rintro ⟨front, _, ht, hm, hmatches⟩
      cases hmatches with
      | @cons _ _ mid rest htakes hmatches =>
        rw [← List.append_assoc] at ht
        exact ⟨front ++ mid, rest, ht, (hmarks _ _ ht).2 ⟨front, mid, rfl, hm, htakes⟩, hmatches⟩

/-- The sweep finds out whether the text starts with a match. -/
theorem matchStart_iff (as : List Atom) (t : Text) : matchStart as t = true ↔ Matches as t := by
  rw [matchStart, contains_foldl_ends (Ends.length_start t)]
  constructor
  · rintro ⟨front, rest, rfl, hmarks, hmatches⟩
    obtain rfl := (Ends.start_marks _ _).1 hmarks
    exact hmatches
  · exact fun hmatches => ⟨[], t, rfl, (Ends.start_marks _ _).2 rfl, hmatches⟩

theorem matches_literals {s t : Text} : Matches (s.map literal) t ↔ s <+: t := by
  induction s generalizing t with
  | nil => exact ⟨fun _ => List.nil_prefix, fun _ => .nil t⟩
  | cons c s ih =>
    constructor
    · intro hmatches
      cases hmatches with
      | cons hc hrest =>
        obtain rfl : _ = [c] := hc
        exact List.cons_prefix_cons.2 ⟨rfl, ih.1 hrest⟩
    · rintro ⟨rest, rfl⟩
      have hmatches : Matches (literal c :: s.map literal) ([c] ++ (s ++ rest)) :=
        .cons rfl (ih.2 (List.prefix_append s rest))
      exact hmatches

end Atom

end Emend
