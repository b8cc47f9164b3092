import Mathlib.Algebra.GroupWithZero.Nat
import Emend.Proofs.Patch.Reading

namespace Emend

namespace Tier

/-- The first tier under which the context agrees with the document from line `i` on. -/
def closest (doc context : List Line) (i : Nat) : Tier :=
  (all.find? fun tier => tier.Matches doc context i).getD exact

variable {tier tier' : Tier} {doc context : List Line} {start i : Nat}

theorem First.closest_eq (h : tier.First doc context start) (hm : tier.Matches doc context i)
    (hi : start ≤ i) : closest doc context i = tier := by
  have hsome : (all.find? fun tier => tier.Matches doc context i) = some tier := by
    obtain ⟨before, after, hall⟩ := List.append_of_mem tier.mem_all
    refine List.find?_eq_some_iff_append.2 ⟨decide_eq_true hm, before, after, hall, ?_⟩
    intro tier' hmem
    simpa using h.2 tier' (penalty_lt_of_mem hall hmem) i hi
  rw [closest, hsome, Option.getD_some]

theorem closest_of_exact (h : exact.Matches doc context i) : closest doc context i = exact := by
  have hfirst : (all.find? fun tier => tier.Matches doc context i) = some exact :=
    List.find?_cons_of_pos (decide_eq_true h)
  rw [closest, hfirst, Option.getD_some]

theorem penalty_eq_zero : tier.penalty = 0 ↔ tier = exact := by
  cases tier <;> simp [penalty]

end Tier

namespace Placement

variable {doc context : List Line} {start i fuzz : Nat}

theorem locate_charges (h : locate doc context start = ⟨some i, fuzz⟩) (hs : start ≤ doc.length) :
    start ≤ i ∧ (Tier.closest doc context i).Matches doc context i ∧
      (Tier.closest doc context i).First doc context start ∧
      fuzz = (Tier.closest doc context i).penalty := by
  obtain ⟨tier, hf, hfirst, hi, hm, -⟩ := locate_first h hs
  rw [hfirst.closest_eq hm hi]
  exact ⟨hi, hm, hfirst, hf⟩

theorem not_matches_of_locate (h : (locate doc context start).position = none) (tier : Tier)
    (hi : start ≤ i) : ¬tier.Matches doc context i := by
  unfold locate at h
  split at h
  · cases h
  · next he =>
    have hne : context ≠ [] := fun hn => he (List.isEmpty_iff.2 hn)
    split at h
    · cases h
    · next hnone =>
      have hnone := List.findSome?_eq_none_iff.1 hnone tier tier.mem_all
      exact (Tier.firstMatch_eq_none hne).1 (Option.map_eq_none_iff.1 hnone) i hi

def MissesEnd (doc context : List Line) (eof : Bool) (i : Nat) : Prop :=
  eof = true ∧ i + context.length ≠ doc.length

instance (doc context : List Line) (eof : Bool) (i : Nat) : Decidable (MissesEnd doc context eof i) :=
  inferInstanceAs (Decidable (_ ∧ _))

theorem find_charges {eof : Bool} (h : find doc context start eof = ⟨some i, fuzz⟩)
    (hs : start ≤ doc.length) :
    (Tier.closest doc context i).Matches doc context i ∧
      (Tier.closest doc context i).First doc context
        (if eof = true ∧ ¬MissesEnd doc context eof i then i else start) ∧
      fuzz = (Tier.closest doc context i).penalty +
        if MissesEnd doc context eof i then eofFuzz else 0 := by
  unfold find at h
  split at h
  · next he =>
    dsimp only at h
    split at h
    · obtain ⟨hle, hm, hfirst, hf⟩ := locate_charges h (Nat.sub_le _ _)
      have hend : i + context.length = doc.length := by
        have hlen := hm.1
        omega
      have hplace : doc.length - context.length = i := by omega
      have hmiss : ¬MissesEnd doc context eof i := fun hmiss => hmiss.2 hend
      rw [if_pos ⟨he, hmiss⟩, if_neg hmiss]
      exact ⟨hm, hplace ▸ hfirst, hf⟩
    · next hnone =>
      have hnone := Option.not_isSome_iff_eq_none.1 hnone
      obtain ⟨hp, hf⟩ := Placement.mk.inj h
      have hloc : locate doc context start = ⟨some i, (locate doc context start).fuzz⟩ := by
        rw [← hp]
      obtain ⟨hle, hm, hfirst, hpenalty⟩ := locate_charges hloc hs
      have hmiss : MissesEnd doc context eof i :=
        ⟨he, fun hend => not_matches_of_locate hnone _ (Nat.le_of_eq (by omega)) hm⟩
      rw [if_neg fun hn => hn.2 hmiss, if_pos hmiss]
      exact ⟨hm, hfirst, by rw [← hf, hpenalty]⟩
  · next he =>
    obtain ⟨hle, hm, hfirst, hf⟩ := locate_charges h hs
    rw [if_neg fun hn => he hn.1, if_neg fun hmiss => he hmiss.1]
    exact ⟨hm, hfirst, hf⟩

end Placement

theorem firstUnpassed_eq_some {normal : Line → Line} {target : Line} {doc : List Line}
    {cursor i : Nat} : firstUnpassed normal target doc cursor = some i ↔
      cursor ≤ i ∧ (∃ l, doc[i]? = some l ∧ normal l = target) ∧
        ∀ j, j < i → ∀ l, doc[j]? = some l → normal l ≠ target := by
  have hpassed : ((doc.take cursor).any fun l => decide (normal l = target)) = true ↔
      ∃ j, j < cursor ∧ ∃ l, doc[j]? = some l ∧ normal l = target := by
    simp only [List.any_eq_true, decide_eq_true_eq, List.mem_iff_getElem?, List.getElem?_take]
    constructor
    · rintro ⟨l, ⟨j, hj⟩, hl⟩
      split at hj
      · next hlt => exact ⟨j, hlt, l, hj, hl⟩
      · cases hj
    · rintro ⟨j, hlt, l, hj, hl⟩
      exact ⟨l, ⟨j, by rw [if_pos hlt, hj]⟩, hl⟩
  unfold firstUnpassed
  split
  · next hany =>
    obtain ⟨j, hj, l, hl, hn⟩ := hpassed.1 hany
    refine ⟨nofun, fun ⟨hle, _, hfirst⟩ => absurd hn ?_⟩
    exact hfirst j (Nat.lt_of_lt_of_le hj hle) l hl
  · next hany =>
    have hbefore : ∀ j, j < cursor → ∀ l, doc[j]? = some l → normal l ≠ target :=
      fun j hj l hl hn => hany (hpassed.2 ⟨j, hj, l, hl, hn⟩)
    simp only [Option.map_eq_some_iff, List.findIdx?_eq_some_iff_getElem, List.length_drop,
      List.getElem_drop, decide_eq_true_eq]
    constructor
    · rintro ⟨k, ⟨hk, hl, hfirst⟩, rfl⟩
      refine ⟨Nat.le_add_right _ _, ⟨_, List.getElem?_eq_getElem _, hl⟩, fun j hj l hjl hn => ?_⟩
      by_cases hjc : j < cursor
      · exact hbefore j hjc l hjl hn
      · obtain ⟨hlt, rfl⟩ := List.getElem?_eq_some_iff.1 hjl
        refine hfirst (j - cursor) (by omega) ?_
        simpa only [Nat.add_sub_cancel' (Nat.le_of_not_lt hjc)] using hn
    · rintro ⟨hle, ⟨l, hl, hn⟩, hfirst⟩
      obtain ⟨hlt, rfl⟩ := List.getElem?_eq_some_iff.1 hl
      refine ⟨i - cursor, ⟨by omega, ?_, fun j hj hjn => ?_⟩, by omega⟩
      · simpa only [Nat.add_sub_cancel' hle] using hn
      · exact hfirst (cursor + j) (by omega) _ (List.getElem?_eq_getElem (by omega)) hjn

namespace Jump

def line? (doc : List Line) (j : Jump) : Option Line := doc[j.target - 1]?

/-- The jump goes past a line that differs from the anchor in surrounding blanks. -/
def Loose (doc : List Line) (j : Jump) : Prop :=
  j.source < j.target ∧
    (j.line? doc).any (fun l => l ≠ j.anchor && l.trim = j.anchor.trim) = true

instance (doc : List Line) (j : Jump) : Decidable (j.Loose doc) :=
  inferInstanceAs (Decidable (_ ∧ _))

theorem seek_charges (anchor : Text) (doc : List Line) (cursor : Nat) :
    let j := seek anchor doc cursor
    j.fuzz = (if j.Loose doc then 1 else 0) ∧
      (j.source < j.target → ¬j.Loose doc → j.line? doc = some j.anchor) := by
  intro j
  have hj : j = seek anchor doc cursor := rfl
  unfold seek at hj
  split at hj
  · next i hi =>
    obtain ⟨hle, ⟨l, hl, rfl⟩, -⟩ := firstUnpassed_eq_some.1 hi
    have hline : j.line? doc = some l := by rw [hj]; exact hl
    have hloose : ¬j.Loose doc := by
      rintro ⟨-, hany⟩
      rw [hline, hj] at hany
      simp at hany
    rw [if_neg hloose, hline]
    exact ⟨by rw [hj], fun _ _ => by rw [hj]; rfl⟩
  · next hexact =>
    split at hj
    · next i hi =>
      obtain ⟨hle, ⟨l, hl, htrim⟩, hfirst⟩ := firstUnpassed_eq_some.1 hi
      have hline : j.line? doc = some l := by rw [hj]; exact hl
      -- If the line were the anchor itself, it would have been found by the first search.
      have hne : l ≠ anchor := by
        rintro rfl
        have hfound : firstUnpassed id l doc cursor = some i :=
          firstUnpassed_eq_some.2 ⟨hle, ⟨l, hl, rfl⟩, fun k hk l' hl' he =>
            hfirst k hk l' hl' (congrArg Text.trim he)⟩
        rw [hexact] at hfound
        cases hfound
      have hloose : j.Loose doc := by
        refine ⟨by rw [hj]; exact Nat.lt_succ_of_le hle, ?_⟩
        rw [hline, hj]
        simp [hne, htrim]
      rw [if_pos hloose]
      exact ⟨by rw [hj], fun _ hn => absurd hloose hn⟩
    · have hstay : ¬j.source < j.target := by
        rw [hj]
        exact Nat.lt_irrefl _
      rw [if_neg fun hloose => hstay hloose.1]
      exact ⟨by rw [hj], fun hlt => absurd hlt hstay⟩

end Jump

namespace Hunk

variable {doc : List Line} {cursor : Nat} {c next : Cursor} {h : Hunk}

def tier (doc : List Line) (h : Hunk) : Tier := Tier.closest doc h.body.context h.position

def MissesEnd (doc : List Line) (h : Hunk) : Prop := h.body.eof = true ∧ h.finish ≠ doc.length

instance (doc : List Line) (h : Hunk) : Decidable (h.MissesEnd doc) :=
  inferInstanceAs (Decidable (_ ∧ _))

def JumpsLoosely (doc : List Line) (h : Hunk) : Prop := ∃ j ∈ h.jump, j.Loose doc

instance (doc : List Line) (h : Hunk) : Decidable (h.JumpsLoosely doc) :=
  inferInstanceAs (Decidable (∃ j ∈ h.jump, j.Loose doc))

/-- What a section costs: the penalty of its tier, a missed end, and a loose jump. -/
def charge (doc : List Line) (h : Hunk) : Nat :=
  (h.tier doc).penalty + (if h.MissesEnd doc then Placement.eofFuzz else 0) +
    if h.JumpsLoosely doc then 1 else 0

/-- Where the section's context was looked for: at the document's end if it stands there as it should,
else from where its header leads. -/
def foundFrom (doc : List Line) (cursor : Nat) (h : Hunk) : Nat :=
  if h.body.eof = true ∧ ¬h.MissesEnd doc then h.position else h.searchStart cursor

/-- The lines of the document at which the section stands are those of its context, it ends the
document if it should, and its header names the line that it leads to. -/
structure Exact (doc : List Line) (h : Hunk) : Prop where
  context : ∀ k, k < h.body.context.length → doc[h.position + k]? = h.body.context[k]?
  finish : h.body.eof = true → h.finish = doc.length
  jump : ∀ j ∈ h.jump, j.source < j.target → j.line? doc = some j.anchor

/-- The section costs what its place and its jump are charged. -/
structure Charged (doc : List Line) (cursor : Nat) (h : Hunk) : Prop where
  fuzz : h.totalFuzz = h.charge doc
  fits : (h.tier doc).Matches doc h.body.context h.position
  first : (h.tier doc).First doc h.body.context (h.foundFrom doc cursor)
  jump : ∀ j ∈ h.jump, j.source < j.target → ¬j.Loose doc → j.line? doc = some j.anchor

theorem ReadAt.charged (hh : ReadAt doc cursor c next h) (hc : cursor ≤ doc.length) :
    h.Charged doc cursor := by
  obtain ⟨-, hs⟩ := hh.searchStart_bounds hc
  obtain ⟨hm, hfirst, hf⟩ := Placement.find_charges hh.place hs
  have hjump : (h.jump.map Jump.fuzz).getD 0 = (if h.JumpsLoosely doc then 1 else 0) ∧
      ∀ j ∈ h.jump, j.source < j.target → ¬j.Loose doc → j.line? doc = some j.anchor := by
    have hseek : h.jump = none ∨ ∃ anchor, h.jump = some (Jump.seek anchor doc cursor) := by
      rw [hh.jump]
      cases h.opening with
      | anchored anchor =>
        unfold Opening.jump?
        dsimp only
        split
        · exact .inl rfl
        · exact .inr ⟨anchor, rfl⟩
      | absent => exact .inl rfl
      | unnamed => exact .inl rfl
      | bare => exact .inl rfl
    obtain hn | ⟨anchor, ha⟩ := hseek
    · have hnot : ¬h.JumpsLoosely doc := by simp [JumpsLoosely, hn]
      rw [if_neg hnot, hn]
      exact ⟨rfl, nofun⟩
    · have hloose : h.JumpsLoosely doc ↔ (Jump.seek anchor doc cursor).Loose doc := by
        simp [JumpsLoosely, ha]
      obtain ⟨hfuzz, hline⟩ := Jump.seek_charges anchor doc cursor
      rw [if_congr hloose rfl rfl, ha]
      refine ⟨hfuzz, fun j hj => ?_⟩
      obtain rfl := Option.some.inj hj
      exact hline
  refine ⟨?_, hm, hfirst, hjump.2⟩
  rw [totalFuzz, hjump.1, hf, Nat.add_comm]
  rfl

theorem Charged.exact_iff (hh : h.Charged doc cursor) : h.totalFuzz = 0 ↔ h.Exact doc := by
  have hcontext : h.tier doc = .exact ↔
      ∀ k, k < h.body.context.length → doc[h.position + k]? = h.body.context[k]? := by
    have hlen := hh.fits.1
    constructor
    · intro he k hk
      have hm := hh.fits
      rw [he] at hm
      obtain ⟨rest, hrest⟩ := (Tier.matches_exact.1 hm).2
      rw [← List.getElem?_drop, ← hrest, List.getElem?_append_left hk]
    · intro hsame
      refine Tier.closest_of_exact (Tier.matches_exact.2 ⟨hlen, ?_⟩)
      rw [List.prefix_iff_getElem?]
      intro k hk
      rw [List.getElem?_drop, hsame k hk, List.getElem?_eq_getElem hk]
  have hjump : ¬h.JumpsLoosely doc ↔
      ∀ j ∈ h.jump, j.source < j.target → j.line? doc = some j.anchor := by
    constructor
    · intro hn j hj hlt
      exact hh.jump j hj hlt fun hloose => hn ⟨j, hj, hloose⟩
    · rintro hsame ⟨j, hj, hlt, hany⟩
      rw [hsame j hj hlt] at hany
      simp at hany
  have hfinish : ¬h.MissesEnd doc ↔ (h.body.eof = true → h.finish = doc.length) := by
    simp [MissesEnd]
  rw [hh.fuzz, charge, Nat.add_eq_zero_iff, Nat.add_eq_zero_iff, Tier.penalty_eq_zero, hcontext]
  constructor
  · rintro ⟨⟨hc, hm⟩, hj⟩
    refine ⟨hc, hfinish.1 fun hmiss => ?_, hjump.1 fun hloose => ?_⟩
    · rw [if_pos hmiss] at hm
      cases hm
    · rw [if_pos hloose] at hj
      cases hj
  · rintro ⟨hc, hm, hj⟩
    exact ⟨⟨hc, if_neg (hfinish.2 hm)⟩, if_neg (hjump.2 hj)⟩

end Hunk

namespace Reading

variable {doc : List Line} {cursor : Nat} {c : Cursor} {r : Reading}

theorem fuzz_eq_sum (r : Reading) : r.fuzz = (r.hunks.map Hunk.totalFuzz).sum := by
  induction r with
  | finished => rfl
  | failed => rfl
  | hunk h rest ih => simp only [fuzz, hunks, List.map_cons, List.sum_cons, ih]

/-- Each section is charged, with those before it passed. -/
theorem Reads.charged (hr : Reads doc cursor c r) (hc : cursor ≤ doc.length) :
    ∀ x ∈ (cursor :: r.hunks.map Hunk.finish).zip r.hunks, x.2.Charged doc x.1 := by
  induction hr with
  | finished => nofun
  | failed => nofun
  | hunk hh hr ih =>
    exact List.forall_mem_cons.2 ⟨hh.charged hc, ih (hh.located hc).finish_le⟩

theorem Reads.exists_charged (hr : Reads doc cursor c r) (hc : cursor ≤ doc.length) :
    ∀ h ∈ r.hunks, ∃ cursor, h.Charged doc cursor := by
  intro h hh
  obtain ⟨i, hi⟩ := List.mem_iff_getElem?.1 hh
  have hlt : i < r.hunks.length := (List.getElem?_eq_some_iff.1 hi).1
  obtain ⟨before, hbefore⟩ : ∃ before, (cursor :: r.hunks.map Hunk.finish)[i]? = some before :=
    ⟨_, List.getElem?_eq_getElem (by simp; omega)⟩
  have hmem : (before, h) ∈ (cursor :: r.hunks.map Hunk.finish).zip r.hunks :=
    List.mem_iff_getElem?.2 ⟨i, List.getElem?_zip_eq_some.2 ⟨hbefore, hi⟩⟩
  exact ⟨before, hr.charged hc _ hmem⟩

end Reading

namespace Patched

/-- The fuzz of an update is the sum of what its sections cost, each by the first tier under which its
context occurs where it is looked for. It is zero exactly if all sections agree with the document as
they are written. -/
theorem update_fuzz (doc body t : Text) (fuzz : Nat) (h : (update doc body).outcome = .ok (t, fuzz)) :
    let hunks := (Reading.ofLines (patchLines body) doc.lines).hunks
    fuzz = (hunks.map (Hunk.charge doc.lines)).sum ∧
      (∀ x ∈ (0 :: hunks.map Hunk.finish).zip hunks,
        (x.2.tier doc.lines).Matches doc.lines x.2.body.context x.2.position ∧
          (x.2.tier doc.lines).First doc.lines x.2.body.context (x.2.foundFrom doc.lines x.1)) ∧
      (fuzz = 0 ↔ ∀ hunk ∈ hunks, hunk.Exact doc.lines) := by
  intro hunks
  have hread := error?_eq_none h
  have hfuzz : fuzz = (hunks.map Hunk.totalFuzz).sum := by
    rw [outcome_update hread, Except.map_eq_ok] at h
    obtain ⟨t', -, he⟩ := h
    cases he
    exact Reading.fuzz_eq_sum _
  have hreads := Reading.reads_ofLines (patchLines body) doc.lines
  have hcharged := hreads.exists_charged (Nat.zero_le _)
  refine ⟨?_, ?_, ?_⟩
  · rw [hfuzz]
    refine congrArg List.sum (List.map_congr_left fun hunk hmem => ?_)
    obtain ⟨cursor, hc⟩ := hcharged hunk hmem
    exact hc.fuzz
  · intro x hx
    have hc := hreads.charged (Nat.zero_le _) x hx
    exact ⟨hc.fits, hc.first⟩
  · rw [hfuzz, List.sum_eq_zero_iff_forall_eq_nat]
    constructor
    · intro hzero hunk hmem
      obtain ⟨cursor, hc⟩ := hcharged hunk hmem
      exact hc.exact_iff.1 (hzero _ (List.mem_map_of_mem hmem))
    · intro hexact n hn
      obtain ⟨hunk, hmem, rfl⟩ := List.mem_map.1 hn
      obtain ⟨cursor, hc⟩ := hcharged hunk hmem
      exact hc.exact_iff.2 (hexact hunk hmem)

/-- A header that names a line with other blanks in front of it, a context found with other blanks
behind it, and a section that should end the document. -/
theorem update_fuzz_loose :
    let doc := "  f\na \nb\nc\nd".toList
    let body := "@@ f\n a\n-b\n@@\n c\n+x\n*** End of File".toList
    let hunks := (Reading.ofLines (patchLines body) (Text.lines doc)).hunks
    (update doc body).outcome = .ok ("  f\na \nc\nx\nd".toList, 10002) ∧
      hunks.map (Hunk.charge (Text.lines doc)) = [2, 10000] ∧
      10002 = (hunks.map (Hunk.charge (Text.lines doc))).sum ∧
      ¬∀ hunk ∈ hunks, hunk.Exact (Text.lines doc) := by
  intro doc body hunks
  have houtcome : (update doc body).outcome = .ok ("  f\na \nc\nx\nd".toList, 10002) := by
    decide +kernel
  obtain ⟨hsum, -, hzero⟩ := update_fuzz doc body _ _ houtcome
  exact ⟨houtcome, by decide +kernel, hsum, fun hexact => nomatch hzero.2 hexact⟩

end Patched

end Emend
