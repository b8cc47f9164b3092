import Emend.Proofs.Envelope
import Emend.Proofs.Patch.Consumption
import Emend.Proofs.Text.Joined

namespace Emend

namespace Text

theorem lines_ne_nil (t : Text) : t.lines ≠ [] := List.splitOn_ne_nil '\n' t

theorem lines_cons (c : Char) (t : Text) :
    lines (c :: t) = if c = '\n' then [] :: lines t else (lines t).modifyHead (c :: ·) := by
  simp [lines, List.splitOn_cons_eq_if_modifyHead]

theorem mem_ofLines {c : Char} (hc : c ≠ '\n') {ls : List Line} : c ∈ ofLines ls ↔ ∃ l ∈ ls, c ∈ l :=
  mem_intercalate hc

end Text

namespace Terminator

variable {e : Terminator} {t : Text} {ls : List Line} {xs ys : List Terminator}

section Written

theorem fromLf_append (e : Terminator) (s t : Text) : e.fromLf (s ++ t) = e.fromLf s ++ e.fromLf t :=
  List.flatMap_append

theorem fromLf_cons (e : Terminator) (c : Char) (t : Text) :
    e.fromLf (c :: t) = (if c = '\n' then e.text else [c]) ++ e.fromLf t := rfl

theorem fromLf_eq_self (h : '\n' ∉ t) : e.fromLf t = t := by
  induction t with
  | nil => rfl
  | cons c t ih =>
    rw [List.mem_cons, not_or] at h
    obtain ⟨hc, ht⟩ := h
    rw [fromLf_cons, if_neg (Ne.symm hc), ih ht, List.singleton_append]

theorem fromLf_ofLines (e : Terminator) (h : ∀ l ∈ ls, '\n' ∉ l) :
    e.fromLf (Text.ofLines ls) = e.text.intercalate ls := by
  induction ls with
  | nil => rfl
  | cons l ls ih =>
    obtain ⟨hl, hls⟩ := List.forall_mem_cons.1 h
    cases ls with
    | nil =>
      rw [Text.ofLines, List.intercalate_singleton, List.intercalate_singleton]
      exact fromLf_eq_self hl
    | cons l' ls =>
      have ih := ih hls
      rw [Text.ofLines] at ih ⊢
      rw [List.intercalate_cons_cons, List.intercalate_cons_cons, fromLf_append, fromLf_append,
        fromLf_eq_self hl, ih]
      simp [fromLf_cons]

end Written

section Detected

theorem hasPair_eq_false (h : '\r' ∉ t ∨ '\n' ∉ t) : hasPair t = false := by
  fun_induction hasPair t with
  | case1 => rfl
  | case2 t => simp at h
  | case3 c t hpair ih =>
    exact ih (h.imp (mt (List.mem_cons_of_mem c)) (mt (List.mem_cons_of_mem c)))

theorem hasPair_cons (c : Char) (h : hasPair t = true) : hasPair (c :: t) = true := by
  unfold hasPair
  split
  · next he => cases he
  · rfl
  · next he =>
    cases he
    exact h

theorem hasPair_fromLf (h : '\n' ∈ t) : hasPair (crlf.fromLf t) = true := by
  induction t with
  | nil => cases h
  | cons c t ih =>
    rw [fromLf_cons]
    split
    · rfl
    · next hc => exact hasPair_cons c (ih ((List.mem_cons.1 h).resolve_left (Ne.symm hc)))

theorem not_mem_cr_fromLf (t : Text) : '\n' ∉ cr.fromLf t := by
  intro h
  obtain ⟨c, -, hc⟩ := List.mem_flatMap.1 h
  split at hc
  · simp [text] at hc
  · next hne => exact hne (List.mem_singleton.1 hc).symm

theorem detect_fromLf (e : Terminator) (hr : '\r' ∉ t) (hn : '\n' ∈ t) : detect (e.fromLf t) = e := by
  unfold detect
  cases e with
  | lf => simp [fromLf_lf, hasPair_eq_false (.inl hr), hr]
  | crlf => simp [hasPair_fromLf hn]
  | cr =>
    have hmem : '\r' ∈ cr.fromLf t := List.mem_flatMap.2 ⟨'\n', hn, by simp [text]⟩
    simp [hasPair_eq_false (.inr (not_mem_cr_fromLf t)), hmem]

theorem toLf_fromLf (e : Terminator) (hr : '\r' ∉ t) : e.toLf (e.fromLf t) = t := by
  cases e with
  | lf => exact fromLf_lf t
  | crlf => exact joinPairs_fromLf hr
  | cr =>
    induction t with
    | nil => rfl
    | cons c t ih =>
      rw [List.mem_cons, not_or] at hr
      obtain ⟨hc, ht⟩ := hr
      have ih := ih ht
      simp only [toLf, fromLf_cons, List.map_append] at ih ⊢
      rw [ih]
      split
      · next hn => simp [text, hn]
      · simp [Ne.symm hc]

end Detected

def weave : List Line → List Terminator → Text
  | l :: ls, x :: xs => l ++ x.text ++ weave ls xs
  | ls, [] => ls.flatten
  | [], _ :: _ => []

section Weave

theorem weave_modifyHead (h : ls ≠ []) (c : Char) (xs : List Terminator) :
    weave (ls.modifyHead (c :: ·)) xs = c :: weave ls xs := by
  obtain ⟨l, ls, rfl⟩ := List.exists_cons_of_ne_nil h
  cases xs <;> simp [weave]

theorem weave_eq_intercalate (hlen : xs.length + 1 = ls.length) (hxs : ∀ x ∈ xs, x = e) :
    weave ls xs = e.text.intercalate ls := by
  induction xs generalizing ls with
  | nil =>
    obtain ⟨l, rfl⟩ := List.length_eq_one_iff.1 hlen.symm
    simp [weave]
  | cons x xs ih =>
    obtain ⟨rfl, hxs⟩ := List.forall_mem_cons.1 hxs
    cases ls with
    | nil => simp at hlen
    | cons l ls =>
      have hlen : xs.length + 1 = ls.length := by simpa using hlen
      obtain ⟨l', ls, rfl⟩ := List.exists_cons_of_length_eq_add_one hlen.symm
      rw [weave, ih hlen hxs, List.intercalate_cons_cons]

theorem text_append_cancel {x y : Terminator} {s t : Text} (hx : x = e ∨ x = lf) (hy : y = e ∨ y = lf)
    (h : x.text ++ s = y.text ++ t) : x = y ∧ s = t := by
  have hsame : x = y := by
    obtain rfl | rfl := hx
    · obtain rfl | rfl := hy
      · rfl
      · cases x <;> simp [text] at h ⊢
    · obtain rfl | rfl := hy
      · cases y <;> simp [text] at h ⊢
      · rfl
  subst hsame
  exact ⟨rfl, List.append_cancel_left h⟩

theorem weave_injective (hlen : xs.length = ys.length) (hls : xs.length < ls.length)
    (hxs : ∀ x ∈ xs, x = e ∨ x = lf) (hys : ∀ y ∈ ys, y = e ∨ y = lf)
    (h : weave ls xs = weave ls ys) : xs = ys := by
  induction xs generalizing ls ys with
  | nil => exact (List.length_eq_zero_iff.1 hlen.symm).symm
  | cons x xs ih =>
    obtain ⟨y, ys, rfl⟩ := List.exists_cons_of_length_eq_add_one hlen.symm
    obtain ⟨l, ls, rfl⟩ := List.exists_cons_of_length_pos (Nat.zero_lt_of_lt hls)
    rw [List.forall_mem_cons] at hxs hys
    simp only [weave, List.append_assoc, List.append_cancel_left_eq] at h
    obtain ⟨rfl, htail⟩ := text_append_cancel hxs.1 hys.1 h
    rw [ih (Nat.succ.inj hlen) (Nat.lt_of_succ_lt_succ hls) hxs.2 hys.2 htail]

end Weave

def pairEnds : Text → List Terminator
  | [] => []
  | '\r' :: '\n' :: t => crlf :: pairEnds t
  | c :: t => if c = '\n' then lf :: pairEnds t else pairEnds t

/-- The terminators of a text of the kind, in order: those of the kind, and line feeds of their own. -/
def ends : Terminator → Text → List Terminator
  | crlf, t => pairEnds t
  | e, t => t.filterMap fun c => if c = '\n' then some lf else if [c] = e.text then some e else none

section Ends

/-- The lines of `s` with the terminators between them are the text `t`. -/
def Divides (s : Text) (xs : List Terminator) (t : Text) : Prop :=
  weave s.lines xs = t ∧ xs.length + 1 = s.lines.length

theorem divides_nil : Divides [] [] [] := ⟨rfl, rfl⟩

theorem Divides.char {s : Text} {c : Char} (h : Divides s xs t) (hc : c ≠ '\n') :
    Divides (c :: s) xs (c :: t) := by
  obtain ⟨rfl, hlen⟩ := h
  rw [Divides, Text.lines_cons, if_neg hc]
  exact ⟨weave_modifyHead (Text.lines_ne_nil s) c xs, by rw [List.length_modifyHead, hlen]⟩

theorem Divides.terminator {s : Text} (h : Divides s xs t) (x : Terminator) :
    Divides ('\n' :: s) (x :: xs) (x.text ++ t) := by
  obtain ⟨rfl, hlen⟩ := h
  rw [Divides, Text.lines_cons, if_pos rfl]
  exact ⟨rfl, congrArg (· + 1) hlen⟩

theorem divides_pairEnds (t : Text) : Divides (joinPairs t) (pairEnds t) t := by
  fun_induction joinPairs t with
  | case1 => exact divides_nil
  | case2 t ih => exact ih.terminator crlf
  | case3 c t hpair ih =>
    rw [pairEnds]
    · split
      · next hc =>
        subst hc
        exact ih.terminator lf
      · next hc => exact ih.char hc
    · exact hpair

/-- A text is its lines with its terminators between them. -/
theorem divides_ends (e : Terminator) (t : Text) : Divides (e.toLf t) (e.ends t) t := by
  cases e with
  | crlf => exact divides_pairEnds t
  | lf =>
    induction t with
    | nil => exact divides_nil
    | cons c t ih =>
      by_cases hc : c = '\n'
      · subst hc
        exact ih.terminator lf
      · simpa [toLf, ends, text, hc] using ih.char hc
  | cr =>
    induction t with
    | nil => exact divides_nil
    | cons c t ih =>
      by_cases hc : c = '\n'
      · subst hc
        exact ih.terminator lf
      · by_cases hr : c = '\r'
        · subst hr
          exact ih.terminator cr
        · simpa [toLf, ends, text, hc, hr] using ih.char hc

theorem mem_pairEnds {x : Terminator} (h : x ∈ pairEnds t) : x = crlf ∨ x = lf := by
  fun_induction pairEnds t with
  | case1 => cases h
  | case2 t ih => exact (List.mem_cons.1 h).elim .inl ih
  | case3 t hpair ih => exact (List.mem_cons.1 h).elim .inr ih
  | case4 c t hpair hc ih => exact ih h

theorem mem_ends {x : Terminator} (h : x ∈ e.ends t) : x = e ∨ x = lf := by
  cases e with
  | crlf => exact mem_pairEnds h
  | lf =>
    obtain ⟨c, -, hc⟩ := List.mem_filterMap.1 h
    grind
  | cr =>
    obtain ⟨c, -, hc⟩ := List.mem_filterMap.1 h
    grind

theorem Divides.eq_intercalate_iff {s : Text} (h : Divides s xs t) (hxs : ∀ x ∈ xs, x = e ∨ x = lf) :
    t = e.text.intercalate s.lines ↔ ∀ x ∈ xs, x = e := by
  obtain ⟨rfl, hlen⟩ := h
  constructor
  · intro heq
    have hall : ∀ x ∈ List.replicate xs.length e, x = e := fun x hx => List.eq_of_mem_replicate hx
    rw [← weave_eq_intercalate (by rw [List.length_replicate, hlen]) hall] at heq
    have hsame : xs = List.replicate xs.length e :=
      weave_injective List.length_replicate.symm (by omega) hxs (fun x hx => .inl (hall x hx)) heq
    rw [hsame]
    exact hall
  · exact weave_eq_intercalate hlen

end Ends

theorem head?_fromLf (t : Text) : (crlf.fromLf t).head? ≠ some '\n' := by
  cases t with
  | nil => simp
  | cons c t =>
    rw [fromLf_cons]
    split
    · simp [text]
    · next hc => simpa using hc

theorem fromLf_crlf_injective {s : Text} (h : crlf.fromLf s = crlf.fromLf t) : s = t := by
  induction s generalizing t with
  | nil =>
    cases t with
    | nil => rfl
    | cons c t =>
      rw [fromLf_cons] at h
      split at h <;> cases h
  | cons c s ih =>
    cases t with
    | nil =>
      rw [fromLf_cons] at h
      split at h <;> cases h
    | cons d t =>
      -- A pair and a carriage return of its own part at the character behind the return.
      rw [fromLf_cons, fromLf_cons] at h
      split at h
      · next hc =>
        split at h
        · next hd => rw [hc, hd, ih (List.append_cancel_left h)]
        · exact absurd (congrArg List.head? (List.cons.inj h).2).symm (head?_fromLf t)
      · split at h
        · exact absurd (congrArg List.head? (List.cons.inj h).2) (head?_fromLf s)
        · obtain ⟨rfl, htail⟩ := List.cons.inj h
          rw [ih htail]

/-- Texts that are written with the same terminators are the same. Where the terminator is a carriage
return, that takes texts without one. -/
theorem fromLf_injective {s : Text} (h : e = cr → '\r' ∉ s ∧ '\r' ∉ t) (he : e.fromLf s = e.fromLf t) :
    s = t := by
  cases e with
  | lf => rwa [fromLf_lf, fromLf_lf] at he
  | crlf => exact fromLf_crlf_injective he
  | cr =>
    obtain ⟨hs, ht⟩ := h rfl
    rw [← toLf_fromLf cr hs, he, toLf_fromLf cr ht]

end Terminator

namespace Step

variable {s : Step} {steps : List Step} {l : Line} {ls : List Line} {place : Nat}

theorem mem_outcome (h : l ∈ outcome steps) : l ∈ context steps ∨ l ∈ inserted steps := by
  obtain ⟨s, hs, rfl⟩ := List.mem_map.1 h
  obtain ⟨hs, -⟩ := List.mem_filter.1 hs
  by_cases hr : s.role = .insert
  · exact .inr (List.mem_map_of_mem (List.mem_filter.2 ⟨hs, by simpa using hr⟩))
  · exact .inl (List.mem_map_of_mem (List.mem_filter.2 ⟨hs, by simpa using hr⟩))

theorem outcome_eq_context (hi : inserted steps = []) (hd : deletedAt place steps = []) :
    outcome steps = context steps := by
  induction steps generalizing place with
  | nil => rfl
  | cons s steps ih =>
    obtain ⟨role, c⟩ := s
    cases role with
    | keep => exact congrArg (c :: ·) (ih hi hd)
    | insert => cases hi
    | delete => cases hd

theorem inserted_eq_nil (h : ∀ s ∈ steps, s.role = .keep) : inserted steps = [] := by
  rw [inserted, List.map_eq_nil_iff, List.filter_eq_nil_iff]
  intro s hs
  simp [h s hs]

theorem deletedAt_eq_nil (h : ∀ s ∈ steps, s.role = .keep) : deletedAt place steps = [] := by
  rw [← List.length_eq_zero_iff, length_deletedAt, deleted, List.length_map, List.length_eq_zero_iff,
    List.filter_eq_nil_iff]
  intro s hs
  simp [h s hs]

theorem Spells.exists_line (h : Spells steps ls) (hs : s ∈ steps) : ∃ l ∈ ls, ofLine? l = some s := by
  induction h with
  | nil => cases hs
  | cons hl _ ih =>
    obtain rfl | hs := List.mem_cons.1 hs
    · exact ⟨_, List.mem_cons_self, hl⟩
    · obtain ⟨l, hmem, hl⟩ := ih hs
      exact ⟨l, List.mem_cons_of_mem _ hmem, hl⟩

end Step

namespace Reading

variable {h : Hunk} {hunks : List Hunk} {parts : List (List Line)} {s : Step} {ls doc : List Line}

theorem exists_line_flatten (hparts : List.Forall₂ Hunk.Spells hunks parts) (hh : h ∈ hunks)
    (hs : s ∈ h.body.steps) : ∃ l ∈ parts.flatten, Step.ofLine? l = some s := by
  induction hparts with
  | nil => cases hh
  | @cons h' ls _ parts hspells _ ih =>
    rw [List.flatten_cons]
    obtain rfl | hh := List.mem_cons.1 hh
    · obtain ⟨header, _, -, ⟨body, hbody, rfl⟩, rfl⟩ := hspells
      obtain ⟨l, hmem, hl⟩ := hbody.exists_line hs
      exact ⟨l, by simp [hmem], hl⟩
    · obtain ⟨l, hmem, hl⟩ := ih hh
      exact ⟨l, List.mem_append_right ls hmem, hl⟩

theorem exists_line (hn : (ofLines ls doc).error? = none) (hh : h ∈ (ofLines ls doc).hunks)
    (hs : s ∈ h.body.steps) : ∃ l ∈ ls, Step.ofLine? l = some s := by
  obtain ⟨parts, unread, hparts, hrest, hpatch, -⟩ := (reads_ofLines ls doc).consumes hn
  obtain ⟨l, hl, hline⟩ := exists_line_flatten hparts hh hs
  have hrest : ls ++ [Marker.endPatch] = parts.flatten ++ unread := hrest
  have hmem : l ∈ ls ++ [Marker.endPatch] := hrest ▸ List.mem_append_left unread hl
  obtain hmem | hmem := List.mem_append.1 hmem
  · exact ⟨l, hmem, hline⟩
  · exact absurd (List.mem_singleton.1 hmem ▸ hl) hpatch

theorem mem_inserted {l : Line} (hn : (ofLines ls doc).error? = none)
    (hl : l ∈ (ofLines ls doc).hunks.flatMap fun h => Step.inserted h.body.steps) :
    Step.toLine ⟨.insert, l⟩ ∈ ls := by
  obtain ⟨h, hh, hl⟩ := List.mem_flatMap.1 hl
  obtain ⟨⟨role, l⟩, hs, rfl⟩ := List.mem_map.1 hl
  obtain ⟨hs, hr⟩ := List.mem_filter.1 hs
  obtain rfl : role = .insert := by simpa using hr
  obtain ⟨l', hmem, hline⟩ := exists_line hn hh hs
  obtain rfl | ⟨-, hkeep⟩ := Step.ofLine?_eq_some.1 hline
  · exact hmem
  · cases hkeep

theorem keeps_of_lines (hn : (ofLines ls doc).error? = none)
    (hls : ∀ l ∈ ls, l.head? ≠ some '+' ∧ l.head? ≠ some '-') (hh : h ∈ (ofLines ls doc).hunks)
    (hs : s ∈ h.body.steps) : s.role = .keep := by
  obtain ⟨l, hl, hline⟩ := exists_line hn hh hs
  obtain ⟨role, c⟩ := s
  cases role with
  | keep => rfl
  | insert =>
    have hr : Role.insert ≠ .keep := by decide
    exact absurd ((Step.head?_eq_lead hline hr).2 rfl) (hls l hl).1
  | delete =>
    have hr : Role.delete ≠ .keep := by decide
    exact absurd ((Step.head?_eq_lead hline hr).2 rfl) (hls l hl).2

end Reading

namespace Patched

variable {file body doc t : Text} {fuzz : Nat}

theorem updateFile_eq_ok : (updateFile file body).outcome = .ok (t, fuzz) ↔
    ∃ s, (update ((Terminator.detect file).toLf file) body).outcome = .ok (s, fuzz) ∧
      t = (Terminator.detect file).fromLf s := by
  rw [updateFile, Except.map_eq_ok]
  constructor
  · rintro ⟨⟨s, n⟩, hs, he⟩
    cases he
    exact ⟨s, hs, rfl⟩
  · rintro ⟨s, hs, rfl⟩
    exact ⟨(s, fuzz), hs, rfl⟩

theorem not_mem_outcome {script : List Step}
    (hn : (Reading.ofLines (patchLines body) doc.lines).error? = none)
    (hc : Step.context script = doc.lines)
    (hi : Step.inserted script = (Reading.ofLines (patchLines body) doc.lines).hunks.flatMap
      fun hunk => Step.inserted hunk.body.steps) :
    ∀ l ∈ Step.outcome script, '\n' ∉ l := by
  intro l hl
  obtain hl | hl := Step.mem_outcome hl
  · rw [hc] at hl
    exact Text.not_mem_of_mem_splitOn hl
  · rw [hi] at hl
    have hline := writable_of_mem_patchLines (Reading.mem_inserted hn hl)
    exact fun hmem => hline.1 (List.mem_cons_of_mem _ hmem)

/-- A patched file is the outcome of one script of the file's lines, with the file's terminator between
all lines. That is the terminator which stood behind a line, but for a line feed of its own in a file
that is told to have another one: each of these is replaced, behind lines that the patch does not name
too. The last line has no terminator, before and after. -/
theorem updateFile_keeps_ends (file body t : Text) (fuzz : Nat)
    (h : (updateFile file body).outcome = .ok (t, fuzz)) :
    let e := Terminator.detect file
    let ls := (e.toLf file).lines
    let hunks := (Reading.ofLines (patchLines body) ls).hunks
    (file = Terminator.weave ls (e.ends file) ∧ (e.ends file).length + 1 = ls.length ∧
        ∀ x ∈ e.ends file, x = e ∨ x = .lf) ∧
      (∃ script : List Step,
        t = e.text.intercalate (Step.outcome script) ∧
        Step.context script = ls ∧
        Step.inserted script = hunks.flatMap (fun hunk => Step.inserted hunk.body.steps) ∧
        Step.deletedAt 0 script = hunks.flatMap fun hunk => Step.deletedAt hunk.position hunk.body.steps) ∧
      (file = e.text.intercalate ls ↔ ∀ x ∈ e.ends file, x = e) ∧
      ((∀ l ∈ patchLines body, l.head? ≠ some '+' ∧ l.head? ≠ some '-') → t = e.text.intercalate ls) := by
  intro e ls hunks
  obtain ⟨s, hs, ht⟩ := updateFile_eq_ok.1 h
  have hn := error?_eq_none hs
  obtain ⟨script, ho, hc, hi, hd⟩ := exists_script hs
  obtain ⟨hfile, hlen⟩ := Terminator.divides_ends e file
  have ht : t = e.text.intercalate (Step.outcome script) := by
    rw [ht, ho]
    exact Terminator.fromLf_ofLines e (not_mem_outcome hn hc hi)
  have hends : ∀ x ∈ e.ends file, x = e ∨ x = .lf := fun x hx => Terminator.mem_ends hx
  refine ⟨⟨hfile.symm, hlen, hends⟩, ⟨script, ht, hc, hi, hd⟩,
    Terminator.Divides.eq_intercalate_iff ⟨hfile, hlen⟩ hends, ?_⟩
  · intro hkeep
    have hsteps : ∀ h ∈ hunks, ∀ s ∈ h.body.steps, s.role = .keep :=
      fun h hh s hs => Reading.keeps_of_lines hn hkeep hh hs
    have hi : Step.inserted script = [] := by
      rw [hi, List.flatMap_eq_nil_iff]
      exact fun h hh => Step.inserted_eq_nil (hsteps h hh)
    have hd : Step.deletedAt 0 script = [] := by
      rw [hd, List.flatMap_eq_nil_iff]
      exact fun h hh => Step.deletedAt_eq_nil (hsteps h hh)
    rw [ht, Step.outcome_eq_context hi hd, hc]

theorem updateFile_keeps_ends_mixed :
    let file := "a\r\nb\nc\rd".toList
    let body := " a\n-b\n+x".toList
    (updateFile file body).outcome = .ok ("a\r\nx\r\nc\rd".toList, 0) ∧
      Terminator.ends .crlf file = [.crlf, .lf] ∧
      ∃ script : List Step,
        "a\r\nx\r\nc\rd".toList = Terminator.crlf.text.intercalate (Step.outcome script) ∧
        Step.context script = ["a".toList, "b".toList, "c\rd".toList] ∧
        Step.inserted script = ["x".toList] ∧ Step.deletedAt 0 script = [1] := by
  intro file body
  have houtcome : (updateFile file body).outcome = .ok ("a\r\nx\r\nc\rd".toList, 0) := by
    decide +kernel
  obtain ⟨-, ⟨script, ho, hc, hi, hd⟩, -⟩ := updateFile_keeps_ends file body _ _ houtcome
  refine ⟨houtcome, by decide +kernel, script, ho, hc.trans ?_, hi.trans ?_, hd.trans ?_⟩
  · decide +kernel
  · decide +kernel
  · decide +kernel

/-- An empty patch turns a line feed into a pair. -/
theorem not_updateFile_keeps_ends_mixed :
    ¬∀ file t fuzz, (updateFile file []).outcome = .ok (t, fuzz) → t = file := by
  intro hall
  have hsame := hall "a\r\nb\nc".toList "a\r\nb\r\nc".toList 0 (by decide +kernel)
  revert hsame
  decide +kernel

theorem not_mem_cr_update (hdoc : '\r' ∉ doc)
    (hbody : ∀ l ∈ patchLines body, l.head? = some '+' → '\r' ∉ l)
    (h : (update doc body).outcome = .ok (t, fuzz)) : '\r' ∉ t := by
  obtain ⟨script, rfl, hc, hi, -⟩ := exists_script h
  have hcr : '\r' ≠ '\n' := by decide
  rw [Text.mem_ofLines hcr]
  rintro ⟨l, hl, hmem⟩
  obtain hl | hl := Step.mem_outcome hl
  · rw [hc] at hl
    rw [← Text.ofLines_lines doc, Text.mem_ofLines hcr] at hdoc
    exact hdoc ⟨l, hl, hmem⟩
  · rw [hi] at hl
    exact hbody _ (Reading.mem_inserted (error?_eq_none h) hl) rfl (List.mem_cons_of_mem _ hmem)

/-- A text patched in a file with terminators of one kind is the text patched, with these terminators,
and fails as it does. So one is known from the other, unless the terminator is a carriage return and the
patch inserts one: in the file it looks as the end of a line does. -/
theorem updateFile_fromLf (e : Terminator) (text body : Text) (hr : '\r' ∉ text) (hn : '\n' ∈ text) :
    let patched := (update text body).outcome
    let filed := (updateFile (e.fromLf text) body).outcome
    (∀ u fuzz, filed = .ok (u, fuzz) ↔ ∃ t, patched = .ok (t, fuzz) ∧ u = e.fromLf t) ∧
      (∀ t fuzz, (e = .cr → '\r' ∉ t ∧ ∀ l ∈ patchLines body, l.head? = some '+' → '\r' ∉ l) →
        (filed = .ok (e.fromLf t, fuzz) ↔ patched = .ok (t, fuzz))) ∧
      ∀ err, filed = .error err ↔ patched = .error err := by
  intro patched filed
  have hok : ∀ u fuzz, filed = .ok (u, fuzz) ↔ ∃ t, patched = .ok (t, fuzz) ∧ u = e.fromLf t := by
    intro u fuzz
    rw [updateFile_eq_ok, Terminator.detect_fromLf e hr hn, Terminator.toLf_fromLf e hr]
  refine ⟨hok, fun t fuzz hcr => ?_, fun err => ?_⟩
  · rw [hok]
    constructor
    · rintro ⟨s, hs, he⟩
      have hsame : s = t := Terminator.fromLf_injective
        (fun h => ⟨not_mem_cr_update hr (hcr h).2 hs, (hcr h).1⟩) he.symm
      rw [← hsame]
      exact hs
    · exact fun ht => ⟨t, ht, rfl⟩
  · show Except.map _ _ = _ ↔ _
    rw [Except.map_eq_error, Terminator.detect_fromLf e hr hn, Terminator.toLf_fromLf e hr]

theorem updateFile_fromLf_blanks :
    let text := "\na\n\n".toList
    let body := " a\n+b".toList
    '\r' ∉ text ∧ '\n' ∈ text ∧ (update text body).outcome = .ok ("\na\nb\n\n".toList, 0) ∧
      (updateFile "\ra\r\r".toList body).outcome = .ok ("\ra\rb\r\r".toList, 0) := by
  intro text body
  have hr : '\r' ∉ text := by decide +kernel
  have hn : '\n' ∈ text := by decide +kernel
  have hupdate : (update text body).outcome = .ok ("\na\nb\n\n".toList, 0) := by decide +kernel
  obtain ⟨-, hsame, -⟩ := updateFile_fromLf .cr text body hr hn
  exact ⟨hr, hn, hupdate, (hsame _ _ fun _ => by decide +kernel).2 hupdate⟩

/-- A carriage return that the patch inserts cannot be told from the end of a line in such a file. -/
theorem not_updateFile_fromLf_inserted :
    ¬∀ (e : Terminator) (text body t : Text) (fuzz : Nat), e ≠ .lf → '\r' ∉ text → '\n' ∈ text →
      ((updateFile (e.fromLf text) body).outcome = .ok (e.fromLf t, fuzz) ↔
        (update text body).outcome = .ok (t, fuzz)) := by
  intro hall
  have hsame := hall .cr "a\n".toList "+x\ry".toList "x\ny\na\n".toList 0 (by decide) (by decide +kernel)
    (by decide +kernel)
  have hother : (update "a\n".toList "+x\ry".toList).outcome = .ok ("x\ry\na\n".toList, 0) := by
    decide +kernel
  have hpatched := hother.symm.trans (hsame.1 (by decide +kernel))
  revert hpatched
  decide +kernel

end Patched

end Emend
