import Emend.Commit.Summary

namespace Emend

namespace Ledger

variable {κ α : Type} {l : Ledger κ α} {k x : κ} {v : α}

section Members

variable [DecidableEq κ]

theorem mem_of_mem_set {p : κ × α} (h : p ∈ l.set k v) : p = (k, v) ∨ p ∈ l := by
  induction l with
  | nil => exact .inl (List.mem_singleton.1 h)
  | cons q l ih =>
    obtain ⟨k', v'⟩ := q
    rw [set] at h
    split at h
    · obtain h | h := List.mem_cons.1 h
      · exact .inl h
      · exact .inr (List.mem_cons_of_mem _ h)
    · obtain h | h := List.mem_cons.1 h
      · exact .inr (h ▸ List.mem_cons_self)
      · exact (ih h).imp_right (List.mem_cons_of_mem _)

theorem set_eq_append (h : ∀ p ∈ l, p.1 ≠ k) : l.set k v = l ++ [(k, v)] := by
  induction l with
  | nil => rfl
  | cons q l ih =>
    obtain ⟨k', v'⟩ := q
    obtain ⟨hne, h⟩ := List.forall_mem_cons.1 h
    rw [set, if_neg hne, ih h, List.cons_append]

theorem mem_set_self : (k, v) ∈ l.set k v := by
  induction l with
  | nil => exact List.mem_cons_self
  | cons q l ih =>
    obtain ⟨k', v'⟩ := q
    rw [set]
    split
    · exact List.mem_cons_self
    · exact List.mem_cons_of_mem _ ih

theorem mem_set_of_ne {p : κ × α} (h : p ∈ l) (hne : p.1 ≠ k) : p ∈ l.set k v := by
  induction l with
  | nil => cases h
  | cons q l ih =>
    obtain ⟨k', v'⟩ := q
    rw [set]
    obtain rfl | h := List.mem_cons.1 h
    · rw [if_neg hne]
      exact List.mem_cons_self
    · split
      · exact List.mem_cons_of_mem _ h
      · exact List.mem_cons_of_mem _ (ih h)

theorem mem_remove {p : κ × α} : p ∈ l.remove k ↔ p ∈ l ∧ p.1 ≠ k := by
  simp [remove]

end Members

variable [BEq κ] [LawfulBEq κ]

theorem mem_of_lookup (h : l.lookup k = some v) : (k, v) ∈ l := by
  obtain ⟨before, after, rfl, -⟩ := List.lookup_eq_some_iff.1 h
  simp

theorem lookup_eq_none (h : ∀ p ∈ l, p.1 ≠ k) : l.lookup k = none := by
  rw [List.lookup_eq_none_iff]
  intro p hp
  exact bne_iff_ne.2 (h p hp).symm

variable [DecidableEq κ]

theorem lookup_set : (l.set k v).lookup x = if x = k then some v else l.lookup x := by
  induction l with
  | nil =>
    by_cases h : x = k
    · simp [set, h]
    · simp [set, h]
  | cons p l ih =>
    obtain ⟨k', v'⟩ := p
    rw [set]
    by_cases hk : k' = k
    · subst hk
      by_cases h : x = k'
      · simp [h]
      · simp [List.lookup_cons, h, beq_eq_false_iff_ne.2 h]
    · rw [if_neg hk, List.lookup_cons, List.lookup_cons, ih]
      by_cases h : x = k'
      · subst h
        simp [hk]
      · simp [beq_eq_false_iff_ne.2 h]

theorem lookup_remove : (l.remove k).lookup x = if x = k then none else l.lookup x := by
  induction l with
  | nil => simp [remove]
  | cons p l ih =>
    obtain ⟨k', v'⟩ := p
    rw [remove] at ih ⊢
    by_cases hk : k' = k
    · subst hk
      rw [List.filter_cons_of_neg (by simp), ih, List.lookup_cons]
      by_cases h : x = k'
      · simp [h]
      · simp [h, beq_eq_false_iff_ne.2 h]
    · rw [List.filter_cons_of_pos (by simp [hk]), List.lookup_cons, List.lookup_cons, ih]
      by_cases h : x = k'
      · subst h
        simp [hk]
      · simp [beq_eq_false_iff_ne.2 h]

end Ledger

namespace Ledger

variable {κ α : Type} {l : Ledger κ α} {k : κ} {v : α}

def Unique (l : Ledger κ α) : Prop := l.Pairwise fun p q => p.1 ≠ q.1

theorem Unique.mem_unique (h : l.Unique) {v' : α} (hv : (k, v) ∈ l) (hv' : (k, v') ∈ l) : v = v' := by
  induction h with
  | nil => cases hv
  | cons hne _ ih =>
    obtain rfl | hmem := List.mem_cons.1 hv
    · obtain he | hmem' := List.mem_cons.1 hv'
      · exact congrArg Prod.snd he.symm
      · exact absurd rfl (hne (k, v') hmem')
    · obtain rfl | hmem' := List.mem_cons.1 hv'
      · exact absurd rfl (hne (k, v) hmem)
      · exact ih hmem hmem'

variable [DecidableEq κ]

theorem Unique.remove (h : l.Unique) (k : κ) : (l.remove k).Unique := h.filter _

theorem Unique.set (h : l.Unique) (k : κ) (v : α) : (l.set k v).Unique := by
  induction h with
  | nil => exact List.pairwise_singleton _ _
  | @cons p l hne h ih =>
    obtain ⟨k', v'⟩ := p
    rw [Ledger.set]
    split
    · next hk => exact .cons (hk ▸ hne) h
    · next hk =>
      refine .cons (fun q hq => ?_) ih
      obtain rfl | hq := mem_of_mem_set hq
      · exact hk
      · exact hne q hq

theorem Unique.eq_or_mem_remove (h : l.Unique) (hv : (k, v) ∈ l) {p : κ × α} (hp : p ∈ l) :
    p = (k, v) ∨ p ∈ l.remove k := by
  by_cases hkey : p.1 = k
  · obtain ⟨k', v'⟩ := p
    obtain rfl : k' = k := hkey
    exact .inl (congrArg (Prod.mk k') (h.mem_unique hp hv))
  · exact .inr (mem_remove.2 ⟨hp, hkey⟩)

end Ledger

end Emend
