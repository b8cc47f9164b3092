import Emend.Patch.Section
import Emend.Proofs.Except

namespace Emend

namespace Chunk

def stop (ch : Chunk) : Int := ch.index + ch.deleted.length

/-- The lines between two places hold all that the chunk takes out. -/
def Inside (low high : Int) (ch : Chunk) : Prop := low ≤ ch.index ∧ ch.stop ≤ high

theorem Inside.mono {low low' high high' : Int} {ch : Chunk} (h : ch.Inside low high)
    (hl : low' ≤ low) (hh : high ≤ high') : ch.Inside low' high' :=
  ⟨Int.le_trans hl h.1, Int.le_trans h.2 hh⟩

theorem map_append (x : Except PatchError (List Line)) (front back : List Line) :
    x.map (front ++ back ++ ·) = (x.map (back ++ ·)).map (front ++ ·) := by
  simp only [Except.map_map, List.append_assoc]

theorem map_nil_append (x : Except PatchError (List Line)) : x.map ([] ++ ·) = x := by
  cases x <;> rfl

theorem spliceFrom_append (length cursor : Nat) (front rest : List Line) {chunks : List Chunk}
    (h : ∀ ch ∈ chunks, (cursor + front.length : Int) ≤ ch.index) :
    spliceFrom length cursor (front ++ rest) chunks =
      (spliceFrom length (cursor + front.length) rest chunks).map (front ++ ·) := by
  cases chunks with
  | nil => rfl
  | cons ch chunks =>
    have hi : (cursor + front.length : Int) ≤ ch.index := h ch List.mem_cons_self
    simp only [spliceFrom]
    split
    · rfl
    · have hk : ch.index.toNat - cursor =
          front.length + (ch.index.toNat - (cursor + front.length)) := by omega
      rw [if_neg (by omega), if_neg (by omega), hk, Nat.add_assoc, List.drop_length_add_append,
        List.take_length_add_append]
      simp only [Except.map_map, List.append_assoc]

theorem spliceFrom_cons_eq_ok {length cursor : Nat} {rest result : List Line} {ch : Chunk}
    {chunks : List Chunk} :
    spliceFrom length cursor rest (ch :: chunks) = .ok result ↔
      cursor ≤ ch.index ∧ ch.index ≤ length ∧
        ∃ tail, spliceFrom length (ch.index.toNat + ch.deleted.length)
            (rest.drop (ch.index.toNat - cursor + ch.deleted.length)) chunks = .ok tail ∧
          rest.take (ch.index.toNat - cursor) ++ ch.inserted ++ tail = result := by
  rw [spliceFrom]
  split
  · next hlt => exact ⟨nofun, fun ⟨_, hle, _⟩ => absurd hle (Int.not_le.2 hlt)⟩
  · next hle =>
    split
    · next hlt => exact ⟨nofun, fun ⟨hge, _⟩ => absurd hge (Int.not_le.2 hlt)⟩
    · next hge =>
      rw [Except.map_eq_ok]
      exact ⟨fun h => ⟨Int.not_lt.1 hge, Int.not_lt.1 hle, h⟩, fun ⟨_, _, h⟩ => h⟩

theorem spliceFrom_ne_outOfRange {length cursor : Nat} {rest : List Line} {chunks : List Chunk}
    (h : ∀ ch ∈ chunks, ch.index ≤ length) (i : Int) (n : Nat) :
    spliceFrom length cursor rest chunks ≠ .error (.outOfRange i n) := by
  induction chunks generalizing cursor rest with
  | nil => nofun
  | cons ch chunks ih =>
    rw [spliceFrom, if_neg (Int.not_lt.2 (h ch List.mem_cons_self))]
    split
    · nofun
    · rw [Ne, Except.map_eq_error]
      exact ih fun ch' hch' => h ch' (List.mem_cons_of_mem _ hch')

/-- Chunks in the order of the document that do not overlap can all be made. -/
theorem exists_spliceFrom_eq_ok {length cursor : Nat} (rest : List Line) {chunks : List Chunk}
    (h : ∀ ch ∈ chunks, ch.Inside cursor length)
    (hp : chunks.Pairwise fun a b => a.stop ≤ b.index) :
    ∃ lines, spliceFrom length cursor rest chunks = .ok lines := by
  induction chunks generalizing cursor rest with
  | nil => exact ⟨rest, rfl⟩
  | cons ch chunks ih =>
    -- The chunks behind the first lie between its end and that of the document.
    obtain ⟨hlow, hhigh⟩ := h ch List.mem_cons_self
    obtain ⟨hfirst, hp⟩ := List.pairwise_cons.1 hp
    unfold stop at hhigh hfirst
    have hlater : ∀ ch' ∈ chunks, ch'.Inside ↑(ch.index.toNat + ch.deleted.length) length := by
      intro ch' hch'
      refine ⟨?_, (h ch' (List.mem_cons_of_mem _ hch')).2⟩
      have := hfirst ch' hch'
      omega
    obtain ⟨tail, htail⟩ := ih (rest.drop (ch.index.toNat - cursor + ch.deleted.length)) hlater hp
    exact ⟨_, spliceFrom_cons_eq_ok.2 ⟨hlow, by omega, tail, htail, rfl⟩⟩

end Chunk

namespace Run

theorem mem_before {r : Run} {place : Nat} {later : List Chunk} {ch : Chunk}
    (h : ch ∈ r.before place later) : ch = ⟨place, r.deleted, r.inserted⟩ ∨ ch ∈ later := by
  unfold before at h
  split at h
  · exact .inr h
  · exact List.mem_cons.1 h

theorem spliceFrom_before (r : Run) {length place : Nat} (rest : List Line) (later : List Chunk)
    (h : place ≤ length) :
    Chunk.spliceFrom length place rest (r.before place later) =
      (Chunk.spliceFrom length (place + r.deleted.length) (rest.drop r.deleted.length) later).map
        (r.inserted ++ ·) := by
  unfold before
  split
  · next he =>
    simp only [isEmpty, Bool.and_eq_true, List.isEmpty_iff] at he
    rw [he.1, he.2, Chunk.map_nil_append]
    rfl
  · simp only [Chunk.spliceFrom]
    rw [if_neg (by omega), if_neg (by omega)]
    simp

theorem before_append (r : Run) (place : Nat) (later more : List Chunk) :
    r.before place later ++ more = r.before place (later ++ more) := by
  unfold before
  split <;> rfl

end Run

namespace Step

def inserted (steps : List Step) : List Line := (steps.filter (·.role = .insert)).map content

/-- The places of the lines that the steps delete; `place` counts the document lines before them. -/
def deletedAt (place : Nat) : List Step → List Nat
  | [] => []
  | s :: steps =>
    match s.role with
    | .keep => deletedAt (place + 1) steps
    | .delete => place :: deletedAt (place + 1) steps
    | .insert => deletedAt place steps

section Lists

variable (s : Step) (steps steps' : List Step)

@[simp] theorem context_nil : context [] = [] := rfl

@[simp] theorem outcome_nil : outcome [] = [] := rfl

@[simp] theorem inserted_nil : inserted [] = [] := rfl

theorem context_keep (c : Line) : context (⟨.keep, c⟩ :: steps) = c :: context steps := rfl

theorem context_delete (c : Line) : context (⟨.delete, c⟩ :: steps) = c :: context steps := rfl

theorem context_insert (c : Line) : context (⟨.insert, c⟩ :: steps) = context steps := rfl

theorem outcome_delete (c : Line) : outcome (⟨.delete, c⟩ :: steps) = outcome steps := rfl

theorem outcome_insert (c : Line) : outcome (⟨.insert, c⟩ :: steps) = c :: outcome steps := rfl

@[simp] theorem context_append : context (steps ++ steps') = context steps ++ context steps' := by
  simp [context]

@[simp] theorem outcome_append : outcome (steps ++ steps') = outcome steps ++ outcome steps' := by
  simp [outcome]

@[simp] theorem inserted_append : inserted (steps ++ steps') = inserted steps ++ inserted steps' := by
  simp [inserted]

end Lists

end Step

namespace Run

theorem read_add (place n : Nat) (steps : List Step) :
    read (place + n) steps = ((read place steps).1, (read place steps).2.map (·.shift n)) := by
  induction steps generalizing place with
  | nil => rfl
  | cons s steps ih =>
    obtain ⟨role, c⟩ := s
    have ih' := ih (place + 1)
    rw [Nat.add_right_comm] at ih'
    cases role with
    | keep =>
      simp only [read, ih', before]
      split
      · rfl
      · simp [Chunk.shift]
        omega
    | insert => simp only [read, ih place]
    | delete => simp only [read, ih']

theorem read_bounds (place : Nat) (steps : List Step) :
    (read place steps).1.deleted.length ≤ (Step.context steps).length ∧
      (∀ ch ∈ (read place steps).2, ch.Inside (place + (read place steps).1.deleted.length + 1)
        (place + (Step.context steps).length)) ∧
      (read place steps).2.Pairwise fun a b => a.stop < b.index := by
  induction steps generalizing place with
  | nil => exact ⟨Nat.le_refl _, nofun, .nil⟩
  | cons s steps ih =>
    obtain ⟨role, c⟩ := s
    cases role with
    | keep =>
      obtain ⟨hl, hin, hp⟩ := ih (place + 1)
      simp only [read, Step.context_keep, List.length_cons, List.length_nil]
      refine ⟨Nat.zero_le _, fun ch hch => ?_, ?_⟩
      · rcases mem_before hch with rfl | hch
        · simp only [Chunk.Inside, Chunk.stop]
          omega
        · exact (hin ch hch).mono (by omega) (by omega)
      · unfold before
        split
        · exact hp
        · refine List.pairwise_cons.2 ⟨fun ch hch => ?_, hp⟩
          have := (hin ch hch).1
          simp only [Chunk.stop]
          omega
    | insert =>
      simp only [read, Step.context_insert]
      exact ih place
    | delete =>
      obtain ⟨hl, hin, hp⟩ := ih (place + 1)
      simp only [read, Step.context_delete, List.length_cons]
      refine ⟨by omega, fun ch hch => (hin ch hch).mono (by omega) (by omega), hp⟩

end Run

namespace Step

def chunksAt (place : Nat) (steps : List Step) : List Chunk :=
  (Run.read place steps).1.before place (Run.read place steps).2

theorem chunksAt_add (place n : Nat) (steps : List Step) :
    chunksAt (place + n) steps = (chunksAt place steps).map (·.shift n) := by
  simp only [chunksAt, Run.read_add, Run.before]
  split
  · rfl
  · simp [Chunk.shift]

theorem chunksAt_inside {place : Nat} {steps : List Step} {ch : Chunk}
    (h : ch ∈ chunksAt place steps) : ch.Inside place (place + (context steps).length) := by
  obtain ⟨hl, hin, -⟩ := Run.read_bounds place steps
  rcases Run.mem_before h with rfl | h
  · simp only [Chunk.Inside, Chunk.stop]
    omega
  · exact (hin ch h).mono (by omega) (by omega)

theorem chunksAt_pairwise (place : Nat) (steps : List Step) :
    (chunksAt place steps).Pairwise fun a b => a.stop < b.index := by
  obtain ⟨-, hin, hp⟩ := Run.read_bounds place steps
  unfold chunksAt Run.before
  split
  · exact hp
  · refine List.pairwise_cons.2 ⟨fun ch hch => ?_, hp⟩
    have := (hin ch hch).1
    simp only [Chunk.stop]
    omega

/-- Splicing the chunks of some steps into their context leaves their outcome. -/
theorem spliceFrom_chunksAt {length place : Nat} (steps : List Step) (rest : List Line)
    {more : List Chunk} (hl : place + (context steps).length ≤ length)
    (hm : ∀ ch ∈ more, (place + (context steps).length : Int) ≤ ch.index) :
    Chunk.spliceFrom length place (context steps ++ rest) (chunksAt place steps ++ more) =
      (Chunk.spliceFrom length (place + (context steps).length) rest more).map
        (outcome steps ++ ·) := by
  induction steps generalizing place with
  | nil =>
    rw [outcome_nil, Chunk.map_nil_append]
    rfl
  | cons s steps ih =>
    obtain ⟨role, c⟩ := s
    cases role with
    | keep =>
      -- No chunk reaches over a line that is kept.
      rw [context_keep, List.length_cons] at hl hm
      have hfront : ∀ ch ∈ chunksAt (place + 1) steps ++ more,
          (place + [c].length : Int) ≤ ch.index := by
        intro ch hch
        rcases List.mem_append.1 hch with hch | hch
        · exact (chunksAt_inside hch).1
        · have := hm ch hch
          simp only [List.length_singleton]
          omega
      have hskip := Chunk.spliceFrom_append length place [c] (context steps ++ rest) hfront
      rw [List.length_singleton, ih (by omega) (by intro ch hch; have := hm ch hch; omega)] at hskip
      rw [← Chunk.map_append, Nat.add_assoc, Nat.add_comm 1] at hskip
      exact hskip
    | insert =>
      -- The first chunk is not the one of the steps behind but one line longer. Taken apart at the run
      -- it comes from, what `ih` says of the rest of the run is left.
      rw [context_insert] at hl hm
      have hrun := ih hl hm
      simp only [chunksAt, Run.before_append, Run.read, context_insert, outcome_insert] at hrun ⊢
      rw [Run.spliceFrom_before _ _ _ (by omega)] at hrun ⊢
      refine (Chunk.map_append _ [c] _).trans ?_
      rw [hrun]
      exact (Chunk.map_append _ [c] _).symm
    | delete =>
      rw [context_delete, List.length_cons] at hl hm
      have hrun := @ih (place + 1) (by omega) (by intro ch hch; have := hm ch hch; omega)
      simp only [chunksAt, Run.before_append, Run.read, context_delete, outcome_delete] at hrun ⊢
      rw [Run.spliceFrom_before _ _ _ (by omega)] at hrun ⊢
      rw [Nat.add_assoc, Nat.add_comm 1, Nat.add_assoc, Nat.add_comm 1] at hrun
      exact hrun

end Step

end Emend
