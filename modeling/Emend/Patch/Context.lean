import Emend.Text.Blank

namespace Emend

/-- How closely two lines have to agree. -/
inductive Tier
  | exact
  | trailing
  | surrounding
deriving DecidableEq, Repr

namespace Tier

/-- Lines agree under a tier if these are equal. -/
def normal : Tier → Line → Line
  | exact, l => l
  | trailing, l => l.trimRight
  | surrounding, l => l.trim

def penalty : Tier → Nat
  | exact => 0
  | trailing => 1
  | surrounding => 100

def all : List Tier := [exact, trailing, surrounding]

/-- The whole context agrees with the document from line `i` on. -/
def Matches (tier : Tier) (doc context : List Line) (i : Nat) : Prop :=
  i + context.length ≤ doc.length ∧
    ((doc.drop i).take context.length).map tier.normal = context.map tier.normal

instance (tier : Tier) (doc context : List Line) (i : Nat) : Decidable (tier.Matches doc context i) :=
  inferInstanceAs (Decidable (_ ∧ _))

def agrees (tier : Tier) : List Line → List Line → Bool
  | [], _ => true
  | _ :: _, [] => false
  | c :: context, l :: ls => tier.normal l = tier.normal c && tier.agrees context ls

def firstFrom (tier : Tier) (context : List Line) (i : Nat) : List Line → Option Nat
  | [] => none
  | l :: ls => if tier.agrees context (l :: ls) then some i else tier.firstFrom context (i + 1) ls

def firstMatch (tier : Tier) (doc context : List Line) (start : Nat) : Option Nat :=
  tier.firstFrom context start (doc.drop start)

theorem agrees_eq_true {tier : Tier} {context ls : List Line} :
    tier.agrees context ls ↔ context.length ≤ ls.length ∧
      (ls.take context.length).map tier.normal = context.map tier.normal := by
  induction context generalizing ls with
  | nil => simp [agrees]
  | cons c context ih =>
    cases ls with
    | nil => simp [agrees]
    | cons l ls =>
      simp only [agrees, Bool.and_eq_true, decide_eq_true_eq, ih, List.length_cons, List.take_succ_cons,
        List.map_cons, List.cons.injEq, Nat.add_le_add_iff_right]
      exact ⟨fun ⟨h₁, h₂, h₃⟩ => ⟨h₂, h₁, h₃⟩, fun ⟨h₁, h₂, h₃⟩ => ⟨h₂, h₁, h₃⟩⟩

theorem firstFrom_eq_some {tier : Tier} {context ls : List Line} {i j : Nat} :
    tier.firstFrom context i ls = some j ↔
      ∃ k, j = i + k ∧ k < ls.length ∧ tier.agrees context (ls.drop k) ∧
        ∀ m, m < k → ¬tier.agrees context (ls.drop m) := by
  induction ls generalizing i with
  | nil => simp [firstFrom]
  | cons l ls ih =>
    unfold firstFrom
    split
    · next h =>
      constructor
      · intro hj
        cases hj
        exact ⟨0, rfl, Nat.succ_pos _, h, fun m hm => absurd hm (Nat.not_lt_zero m)⟩
      · rintro ⟨k, rfl, -, -, hm⟩
        cases k with
        | zero => rfl
        | succ k => exact absurd h (hm 0 (Nat.succ_pos k))
    · next h =>
      rw [ih]
      constructor
      · rintro ⟨k, rfl, hl, hk, hm⟩
        refine ⟨k + 1, by omega, Nat.succ_lt_succ hl, hk, fun m hmk => ?_⟩
        cases m with
        | zero => exact h
        | succ m => exact hm m (Nat.lt_of_succ_lt_succ hmk)
      · rintro ⟨k, rfl, hl, hk, hm⟩
        cases k with
        | zero => exact absurd hk h
        | succ k =>
          exact ⟨k, by omega, Nat.lt_of_succ_lt_succ hl, hk,
            fun m hmk => hm (m + 1) (Nat.succ_lt_succ hmk)⟩

theorem agrees_drop {tier : Tier} {doc context : List Line} {i : Nat} (h : i ≤ doc.length) :
    tier.agrees context (doc.drop i) ↔ tier.Matches doc context i := by
  rw [agrees_eq_true, List.length_drop]
  exact and_congr_left' (by omega)

theorem firstMatch_eq_some {tier : Tier} {doc context : List Line} {start i : Nat} :
    tier.firstMatch doc context start = some i ↔
      tier.Matches doc context i ∧ (start ≤ i ∧ i < doc.length) ∧
        ∀ j, start ≤ j → j < i → ¬tier.Matches doc context j := by
  rw [firstMatch, firstFrom_eq_some]
  simp only [List.length_drop, List.drop_drop]
  constructor
  · rintro ⟨k, rfl, hl, hk, hm⟩
    refine ⟨(agrees_drop (by omega)).1 hk, ⟨by omega, by omega⟩, fun j hs hj hmj => ?_⟩
    refine hm (j - start) (by omega) ?_
    rw [Nat.add_sub_cancel' hs]
    exact (agrees_drop (by omega)).2 hmj
  · rintro ⟨hm, ⟨hs, hl⟩, hj⟩
    refine ⟨i - start, by omega, by omega, ?_, fun m hmk hma => ?_⟩
    · rw [Nat.add_sub_cancel' hs]
      exact (agrees_drop (by omega)).2 hm
    · exact hj (start + m) (by omega) (by omega) ((agrees_drop (by omega)).1 hma)

end Tier

structure Placement where
  position : Option Nat
  fuzz : Nat
deriving DecidableEq, Repr

namespace Placement

/-- Looks at or after `start` under each tier in turn. An empty context stands where the search starts. -/
def locate (doc context : List Line) (start : Nat) : Placement :=
  if context.isEmpty then ⟨some start, 0⟩
  else
    match Tier.all.findSome? fun tier => (tier.firstMatch doc context start).map (tier, ·) with
    | some (tier, i) => ⟨some i, tier.penalty⟩
    | none => ⟨none, 0⟩

/-- The fuzz of a context that should end the document and does not. -/
def eofFuzz : Nat := 10000

/-- Looks at the end of the document first if the context should stand there. -/
def find (doc context : List Line) (start : Nat) (eof : Bool) : Placement :=
  if eof then
    let atEnd := locate doc context (doc.length - context.length)
    if atEnd.position.isSome then atEnd
    else
      let other := locate doc context start
      { other with fuzz := other.fuzz + eofFuzz }
  else locate doc context start

end Placement

end Emend
