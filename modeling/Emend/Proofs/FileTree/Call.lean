import Emend.Proofs.Ends
import Emend.Proofs.FileTree.Temporary

namespace Emend

namespace FileTree

open EStateM

variable {t t' t'' : FileTree} {p q : Path} {b : ByteArray}

def Reaches (t : FileTree) (p : Path) : Prop := Path.hasNull p = false ∧ Fits p ∧ t.Holds p

theorem Reaches.mono (h : t.Reaches p) (hd : ∀ q, t.get? q = some .dir → t'.get? q = some .dir) :
    t'.Reaches p :=
  ⟨h.1, h.2.1, h.2.2.mono hd⟩

theorem Reaches.has (h : t.Reaches p) (hl : t.LinkFree) (hp : Path.Plain p)
    (he : (t.get? p).isSome) : t.has p = true :=
  (has_iff hl hp).2 ⟨h.2.1, h.2.2, he⟩

theorem ne_nil_of_get? {e : Option Entry} (h : t.get? p = e) (he : e ≠ some .dir) : p ≠ [] := by
  rintro rfl
  exact he h.symm

theorem ne_dir_of_get? (h : t.get? p = some (.file b)) : t.get? p ≠ some .dir := by
  rw [h]
  exact nofun

theorem LinkFree.put {e : Entry} (hl : t.LinkFree) (hp : p ≠ []) (he : ∀ target, e ≠ .link target) :
    (t.put p e).LinkFree := by
  intro q target
  rw [get?_put t hp]
  split
  · exact fun h => he target (Option.some.inj h)
  · exact hl q target

theorem LinkFree.erase (hl : t.LinkFree) (hp : p ≠ []) : (t.erase p).LinkFree := by
  intro q target
  rw [get?_erase t hp]
  split
  · exact nofun
  · exact hl q target

theorem linkFree_empty : empty.LinkFree := by
  intro p target
  by_cases hp : p = []
  · subst hp
    exact nofun
  · rw [get?_of_ne_nil hp, lookup_empty]
    exact nofun

theorem rooted_empty : empty.Rooted := by
  intro p n h
  rw [get?_of_ne_nil (by simp), lookup_empty] at h
  cases h

theorem Rooted.put {e : Entry} {n : Name} (h : t.Rooted) (hd : t.get? p = some .dir)
    (he : t.get? (p ++ [n]) ≠ some .dir) : (t.put (p ++ [n]) e).Rooted := by
  intro q m hq
  have hput := get?_put t (p := p ++ [n]) (by simp) e
  have hdir : t.get? q = some .dir := by
    rw [hput] at hq
    split at hq
    · next hqm =>
      rw [(List.append_inj' hqm rfl).1]
      exact hd
    · exact h q m hq
  have hne : q ≠ p ++ [n] := fun heq => he (heq ▸ hdir)
  rw [hput, if_neg hne, hdir]

theorem get?_dir_put {e : Entry} (hd : t.get? p ≠ some .dir) (q : Path)
    (hq : t.get? q = some .dir) : (t.put p e).get? q = some .dir := by
  have hne : q ≠ p := fun he => hd (he ▸ hq)
  rw [get?_put t (ne_nil_of_get? rfl hd), if_neg hne, hq]

theorem get?_dir_erase (hd : t.get? p ≠ some .dir) (q : Path) (hq : t.get? q = some .dir) :
    (t.erase p).get? q = some .dir := by
  have hne : q ≠ p := fun he => hd (he ▸ hq)
  rw [get?_erase t (ne_nil_of_get? rfl hd), if_neg hne, hq]

theorem Rooted.put_of_holds {e : Entry} (h : t.Rooted) (hholds : t.Holds p)
    (he : t.get? p ≠ some .dir) : (t.put p e).Rooted := by
  have hp := ne_nil_of_get? rfl he
  rw [← List.dropLast_concat_getLast hp] at hholds he ⊢
  exact h.put (holds_concat.1 hholds).2 he

theorem Rooted.erase (h : t.Rooted) (hd : t.get? p ≠ some .dir) : (t.erase p).Rooted := by
  intro q n hq
  have herase := get?_erase t (ne_nil_of_get? rfl hd)
  rw [herase] at hq
  split at hq
  · cases hq
  · exact get?_dir_erase hd q (h q n hq)

section Move

variable (hp : t.get? p ≠ some .dir) (hq : t.get? q ≠ some .dir)
include hp hq

theorem get?_move (e : Entry) (r : Path) :
    ((t.erase p).put q e).get? r = if r = q then some e else if r = p then none else t.get? r := by
  rw [get?_put _ (ne_nil_of_get? rfl hq), get?_erase _ (ne_nil_of_get? rfl hp)]

theorem get?_move_target (e : Entry) : ((t.erase p).put q e).get? q = some e :=
  (get?_move hp hq e q).trans (if_pos rfl)

theorem get?_move_source (e : Entry) (hne : p ≠ q) : ((t.erase p).put q e).get? p = none :=
  (get?_move hp hq e p).trans ((if_neg hne).trans (if_pos rfl))

theorem get?_move_of_ne (e : Entry) {r : Path} (hrp : r ≠ p) (hrq : r ≠ q) :
    ((t.erase p).put q e).get? r = t.get? r :=
  (get?_move hp hq e r).trans ((if_neg hrq).trans (if_neg hrp))

theorem get?_dir_move (e : Entry) (r : Path) (hr : t.get? r = some .dir) :
    ((t.erase p).put q e).get? r = some .dir := by
  have hrp : r ≠ p := fun he => hp (he ▸ hr)
  have hrq : r ≠ q := fun he => hq (he ▸ hr)
  rw [get?_move_of_ne hp hq e hrp hrq, hr]

theorem LinkFree.move (hl : t.LinkFree) : ((t.erase p).put q (.file b)).LinkFree :=
  (hl.erase (ne_nil_of_get? rfl hp)).put (ne_nil_of_get? rfl hq) nofun

end Move

section

variable (hl : t.LinkFree) (hp : Path.Plain p)
include hl hp

theorem callSpot_cases (last : LastName) :
    t.Reaches p ∧ t.callSpot last p = .ok ⟨p, false⟩ ∨
      ¬t.Reaches p ∧ ∃ e, t.callSpot last p = .error e := by
  unfold callSpot
  split
  · next hnull => exact .inr ⟨fun h => absurd h.1 (by simp [hnull]), _, rfl⟩
  · next hnull =>
    have hnull := Bool.eq_false_iff.2 hnull
    split
    · next s hs =>
      obtain ⟨hfits, hholds, rfl⟩ := (spot_eq_ok hl hp).1 hs
      exact .inl ⟨⟨hnull, hfits, hholds⟩, rfl⟩
    · next e he =>
      refine .inr ⟨fun h => ?_, _, rfl⟩
      rw [(spot_eq_ok hl hp).2 ⟨h.2.1, h.2.2, rfl⟩] at he
      cases he

theorem removeFile_ends :
    (removeFile p).Ends t
      (fun _ t' => t' = t.erase p ∧ t.Reaches p ∧ ∃ b, t.get? p = some (.file b))
      (fun _ t' => t' = t ∧ ¬(t.Reaches p ∧ ∃ b, t.get? p = some (.file b))) := by
  unfold EStateM.Ends removeFile
  obtain ⟨hr, hs⟩ | ⟨hr, e, hs⟩ := callSpot_cases hl hp .entry
  · simp only [hs]
    cases hg : t.get? p with
    | none => simp
    | some e =>
      cases e with
      | file b => simp [hr]
      | dir => simp
      | link target => exact absurd hg (hl p target)
  · simp [hs, hr]

theorem writeFile_ends (bytes : ByteArray) :
    (writeFile p bytes).Ends t
      (fun _ t' => t' = t.put p (.file bytes) ∧ t.Reaches p ∧ t.get? p ≠ some .dir)
      (fun _ t' => t' = t ∧ ¬(t.Reaches p ∧ t.get? p ≠ some .dir)) := by
  unfold EStateM.Ends writeFile
  obtain ⟨hr, hs⟩ | ⟨hr, e, hs⟩ := callSpot_cases hl hp .newFile
  · simp only [hs]
    by_cases hd : t.get? p = some .dir
    · simp [hd]
    · simp [hd, hr]
  · simp [hs, hr]

theorem rename_ends (hq : Path.Plain q) (hne : p ≠ q) :
    (rename p q).Ends t
      (fun _ t' => ∃ b, t.get? p = some (.file b) ∧ t.get? q ≠ some .dir ∧ t.Reaches p ∧ t.Reaches q ∧
        t' = (t.erase p).put q (.file b))
      (fun _ t' => t' = t ∧
        ¬(t.Reaches p ∧ t.Reaches q ∧ (∃ b, t.get? p = some (.file b)) ∧ t.get? q ≠ some .dir)) := by
  unfold EStateM.Ends rename
  by_cases hnull : Path.hasNull p || Path.hasNull q
  · rw [if_pos hnull]
    refine ⟨rfl, fun h => ?_⟩
    rw [h.1.1, h.2.1.1] at hnull
    cases hnull
  · rw [if_neg hnull]
    simp only [Bool.or_eq_true, not_or, Bool.not_eq_true] at hnull
    cases hs : t.spot .entry p with
    | error e =>
      refine ⟨rfl, fun h => ?_⟩
      rw [(spot_eq_ok hl hp).2 ⟨h.1.2.1, h.1.2.2, rfl⟩] at hs
      cases hs
    | ok s =>
      obtain ⟨hpf, hph, rfl⟩ := (spot_eq_ok hl hp).1 hs
      cases hd : t.spot .entry q with
      | error e =>
        refine ⟨rfl, fun h => ?_⟩
        rw [(spot_eq_ok hl hq).2 ⟨h.2.1.2.1, h.2.1.2.2, rfl⟩] at hd
        cases hd
      | ok d =>
        obtain ⟨hqf, hqh, rfl⟩ := (spot_eq_ok hl hq).1 hd
        dsimp only
        cases hg : t.get? p with
        | none => simp
        | some e =>
          cases e with
          | dir => simp
          | link target => exact absurd hg (hl p target)
          | file b =>
            by_cases hdir : t.get? q = some .dir
            · simp [hdir]
            · simp only [hne, if_false]
              exact ⟨b, rfl, hdir, ⟨hnull.1, hpf, hph⟩, ⟨hnull.2, hqf, hqh⟩, rfl⟩

end

/-- A temporary file can be made at the path, under a fresh number. -/
structure Drawn (t : FileTree) (reserved : List Name) (kind : TempKind) (temp : Path) : Prop where
  name : ∃ dir n, temp = dir ++ [tempName kind n] ∧ t.Fresh reserved dir kind n
  plain : Path.Plain temp

theorem Drawn.free {reserved : List Name} {kind : TempKind} {temp : Path}
    (h : t.Drawn reserved kind temp) : t.get? temp = none := by
  obtain ⟨dir, n, rfl, hn⟩ := h.name
  exact hn.free

theorem Drawn.get?_put_of_ne {reserved : List Name} {kind : TempKind} {temp : Path} {e : Entry}
    (h : t.Drawn reserved kind temp) (hne : p ≠ temp) : (t.put temp e).get? p = t.get? p :=
  (get?_put t (ne_nil_of_get? h.free nofun) e p).trans (if_neg hne)

theorem Drawn.get?_put_self {reserved : List Name} {kind : TempKind} {temp : Path} {e : Entry}
    (h : t.Drawn reserved kind temp) : (t.put temp e).get? temp = some e :=
  (get?_put t (ne_nil_of_get? h.free nofun) e temp).trans (if_pos rfl)

theorem Fresh.drawn {reserved : List Name} {kind : TempKind} {n : Nat} (h : t.Fresh reserved p kind n)
    (hp : Path.Plain p) : t.Drawn reserved kind (p ++ [tempName kind n]) :=
  ⟨⟨p, n, rfl, h⟩, Path.plain_append.2 ⟨hp, plain_tempName kind n⟩⟩

end FileTree

end Emend
