import Mathlib.Data.List.Forall2
import Emend.Apply
import Emend.Proofs.Commit.Ledger
import Emend.Proofs.Commit.Target
import Emend.Proofs.Ends

namespace Emend

open EStateM

theorem Text.encode_injective {s t : Text} (h : s.encode = t.encode) : s = t := by
  have hdecode := congrArg decode? h
  rw [decode?_encode, decode?_encode] at hdecode
  exact Option.some.inj hdecode

/-- What one operation comes to: the places it touches, the changes it makes and the fuzz of its body. -/
structure Effect where
  places : List Path
  changes : List Change
  fuzz : Ledger Text Nat

section Works

variable (t : FileTree) (base : RealPath) (rules : Option Rules)

/-- What an operation comes to by itself. -/
inductive Operation.Works : Operation → Effect → Prop
  | add {path text : Text} {body : List Line} {p : Path} {n : Nat}
      (hp : Draft.guarded base rules path = .ok p) (hn : t.has p = false)
      (hbody : (Patched.create (Text.ofLines body)).outcome = .ok (text, n)) :
      Works (.add path body) ⟨[p], [⟨.create, path, some text, none⟩], []⟩
  | delete {path : Text} {p : Path} {b : ByteArray} (hp : Draft.guarded base rules path = .ok p)
      (hb : t.find p = .ok (.file b)) :
      Works (.delete path) ⟨[p], [⟨.delete, path, none, Text.decode? b⟩], []⟩
  | update {path former text : Text} {body : List Line} {p : Path} {n : Nat}
      (hp : Draft.guarded base rules path = .ok p) (hb : t.find p = .ok (.file former.encode))
      (hbody : (Patched.updateFile former (Text.ofLines body)).outcome = .ok (text, n)) :
      Works (.update path body none) ⟨[p], [⟨.modify, path, some text, some former⟩], [(path, n)]⟩
  | move {path newPath former text : Text} {body : List Line} {p dest : Path} {n : Nat}
      (hp : Draft.guarded base rules path = .ok p) (hb : t.find p = .ok (.file former.encode))
      (hbody : (Patched.updateFile former (Text.ofLines body)).outcome = .ok (text, n))
      (hdest : Draft.guarded base rules newPath = .ok dest) (hne : dest ≠ p) (hn : t.has dest = false) :
      Works (.update path body (some newPath)) ⟨[p, dest],
        [⟨.create, newPath, some text, none⟩, ⟨.delete, path, none, some former⟩], [(path, n)]⟩

end Works

namespace Draft

variable {t : FileTree} {base : RealPath} {rules : Option Rules} {d d' : Draft} {path : Text}
  {p : Path} {op : Operation} {e : Effect}

theorem guarded_eq_ok (h : guarded base rules path = .ok p) : base.resolve? path = some p := by
  unfold guarded at h
  split at h
  · cases h
  · next q hq =>
    split at h
    · cases h
    · rw [hq]
      exact congrArg some (Except.ok.inj h)

theorem ends_ofExcept {α : Type} {r : Except Refusal α} :
    (ofExcept r : Drafting α).Ends d (fun a d' => r = .ok a ∧ d' = d)
      (fun _ _ => ∀ a, r ≠ .ok a) := by
  cases r with
  | ok a => exact ⟨rfl, rfl⟩
  | error e => exact fun a => nofun

theorem claim_ends (base : RealPath) (rules : Option Rules) (path : Text) (d : Draft) :
    (claim base rules path).Ends d
      (fun p d' => guarded base rules path = .ok p ∧ p ∉ d.claimed ∧
        d' = { d with claimed := d.claimed ++ [p] })
      (fun _ _ => ∀ p, guarded base rules path = .ok p → p ∈ d.claimed) := by
  unfold claim
  rw [ends_bind]
  apply ends_ofExcept.mono
  · rintro p _ ⟨hp, rfl⟩
    rw [ends_bind, ends_get]
    split
    · next hold =>
      intro q hq
      rw [hp] at hq
      obtain rfl := Except.ok.inj hq
      simpa using hold
    · next hnew => exact ⟨hp, by simpa using hnew, rfl⟩
  · exact fun _ _ hnone p hp => absurd hp (hnone p)

theorem patched_ends (r : Patched) (d : Draft) :
    (patched r).Ends d (fun a d' => r.outcome = .ok a ∧ d' = { d with log := d.log ++ r.log })
      (fun _ _ => ∀ a, r.outcome ≠ .ok a) := by
  unfold patched
  rw [ends_bind, ends_modify]
  cases r.outcome with
  | ok a => exact ⟨rfl, rfl⟩
  | error e => exact fun a => nofun

theorem bytes_eq_ok {b : ByteArray} : bytes t p path = .ok b ↔ t.find p = .ok (.file b) := by
  unfold bytes
  split
  · next b' hb => simp [hb]
  · next hnone => simpa using hnone b

/-- The draft can take what the operation comes to: none of its places has been claimed. -/
def Admits (t : FileTree) (base : RealPath) (rules : Option Rules) (d : Draft) (op : Operation)
    (e : Effect) : Prop :=
  op.Works t base rules e ∧ ∀ p ∈ e.places, p ∉ d.claimed

structure Adds (d : Draft) (e : Effect) (d' : Draft) : Prop where
  claimed : d'.claimed = d.claimed ++ e.places
  changes : d'.changes = d.changes ++ e.changes
  fuzz : d'.fuzz = d.fuzz.setAll e.fuzz

section Operations

variable {body : List Line} (hp : guarded base rules path = .ok p) (hnew : p ∉ d.claimed)
include hp hnew

theorem add_works :
    (add t p path (Text.ofLines body)).Ends { d with claimed := d.claimed ++ [p] }
      (fun _ d' => ∃ e, Admits t base rules d (.add path body) e ∧ d.Adds e d')
      (fun _ _ => ∀ e, ¬Admits t base rules d (.add path body) e) := by
  unfold add
  split
  · next hhas =>
    rintro e ⟨hw, -⟩
    cases hw with
    | add hp' hn =>
      rw [hp] at hp'
      obtain rfl := Except.ok.inj hp'
      rw [hhas] at hn
      cases hn
  · next hhas =>
    rw [ends_bind]
    apply (patched_ends _ _).mono
    · rintro ⟨text, n⟩ _ ⟨hbody, rfl⟩
      exact ⟨_, ⟨.add hp (Bool.eq_false_iff.2 hhas) hbody, by simpa using hnew⟩, rfl, rfl, rfl⟩
    · rintro _ _ hnone e ⟨hw, -⟩
      cases hw with
      | add _ _ hbody => exact hnone _ hbody

theorem delete_works :
    (delete t p path).Ends { d with claimed := d.claimed ++ [p] }
      (fun _ d' => ∃ e, Admits t base rules d (.delete path) e ∧ d.Adds e d')
      (fun _ _ => ∀ e, ¬Admits t base rules d (.delete path) e) := by
  unfold delete
  rw [ends_bind]
  apply ends_ofExcept.mono
  · rintro b _ ⟨hb, rfl⟩
    exact ⟨_, ⟨.delete hp (bytes_eq_ok.1 hb), by simpa using hnew⟩, rfl, rfl, rfl⟩
  · rintro _ _ hnone e ⟨hw, -⟩
    cases hw with
    | delete hp' hb =>
      rw [hp] at hp'
      obtain rfl := Except.ok.inj hp'
      exact hnone _ (bytes_eq_ok.2 hb)

omit hnew in
theorem needs_of_works {moveTo : Option Text} (hw : (Operation.update path body moveTo).Works t base rules e) :
    ∃ former r, t.find p = .ok (.file (Text.encode former)) ∧
      (Patched.updateFile former (Text.ofLines body)).outcome = .ok r := by
  cases hw with
  | update hp' hb hbody =>
    rw [hp] at hp'
    obtain rfl := Except.ok.inj hp'
    exact ⟨_, _, hb, hbody⟩
  | move hp' hb hbody =>
    rw [hp] at hp'
    obtain rfl := Except.ok.inj hp'
    exact ⟨_, _, hb, hbody⟩

theorem move_works {former text : Text} {n : Nat} {log : List Text} (newPath : Text)
    (hb : t.find p = .ok (.file former.encode))
    (hbody : (Patched.updateFile former (Text.ofLines body)).outcome = .ok (text, n)) :
    (do
      let dest ← claim base rules newPath
      if t.has dest then throw (.destinationExists newPath)
      else
        change { action := .create, path := newPath, content := some text }
        change { action := .delete, path := path, former := some former } : Drafting Unit).Ends
      ⟨d.claimed ++ [p], d.changes, d.fuzz.set path n, log⟩
      (fun _ d' => ∃ e, Admits t base rules d (.update path body (some newPath)) e ∧ d.Adds e d')
      (fun _ _ => ∀ e, ¬Admits t base rules d (.update path body (some newPath)) e) := by
  rw [ends_bind]
  apply (claim_ends _ _ _ _).mono
  · rintro dest _ ⟨hdest, hfree, rfl⟩
    simp only [List.mem_append, List.mem_singleton, not_or] at hfree
    split
    · next hhas =>
      rintro e ⟨hw, -⟩
      cases hw with
      | move _ _ _ hdest' _ hn =>
        rw [hdest] at hdest'
        obtain rfl := Except.ok.inj hdest'
        rw [hhas] at hn
        cases hn
    · next hhas =>
      have hw := Operation.Works.move hp hb hbody hdest hfree.2 (Bool.eq_false_iff.2 hhas)
      refine ⟨_, ⟨hw, ?_⟩, by simp, by simp, rfl⟩
      simp [hnew, hfree.1]
  · rintro _ _ htaken e ⟨hw, hplaces⟩
    cases hw with
    | move hp' _ _ hdest hne =>
      rw [hp] at hp'
      obtain rfl := Except.ok.inj hp'
      have hmem := htaken _ hdest
      simp only [List.mem_append, List.mem_singleton] at hmem
      exact hmem.elim (hplaces _ (by simp)) hne

theorem update_works (moveTo : Option Text) :
    (update t base rules p path (Text.ofLines body) moveTo).Ends { d with claimed := d.claimed ++ [p] }
      (fun _ d' => ∃ e, Admits t base rules d (.update path body moveTo) e ∧ d.Adds e d')
      (fun _ _ => ∀ e, ¬Admits t base rules d (.update path body moveTo) e) := by
  unfold update
  rw [ends_bind]
  apply ends_ofExcept.mono
  · rintro b _ ⟨hb, rfl⟩
    rw [bytes_eq_ok] at hb
    cases hdecode : Text.decode? b with
    | none =>
      rintro e ⟨hw, -⟩
      obtain ⟨former, -, hf, -⟩ := needs_of_works hp hw
      rw [hb] at hf
      cases hf
      rw [Text.decode?_encode] at hdecode
      cases hdecode
    | some former =>
      obtain rfl := Text.encode_of_decode? hdecode
      simp only [ends_bind, ends_modify]
      apply (patched_ends _ _).mono
      · rintro ⟨text, n⟩ _ ⟨hbody, rfl⟩
        cases moveTo with
        | none => exact ⟨_, ⟨.update hp hb hbody, by simpa using hnew⟩, rfl, rfl, rfl⟩
        | some newPath => exact move_works hp hnew newPath hb hbody
      · rintro _ _ hnone e ⟨hw, -⟩
        obtain ⟨former', r, hf, hbody⟩ := needs_of_works hp hw
        rw [hb] at hf
        obtain rfl := Text.encode_injective (Entry.file.inj (Except.ok.inj hf))
        exact hnone r hbody
  · rintro _ _ hnone e ⟨hw, -⟩
    obtain ⟨former, -, hf, -⟩ := needs_of_works hp hw
    exact hnone _ (bytes_eq_ok.2 hf)

end Operations

theorem operation_works (op : Operation) (d : Draft) :
    (operation t base rules op).Ends d (fun _ d' => ∃ e, Admits t base rules d op e ∧ d.Adds e d')
      (fun _ _ => ∀ e, ¬Admits t base rules d op e) := by
  unfold operation
  rw [ends_bind]
  apply (claim_ends base rules op.path d).mono
  · rintro p _ ⟨hp, hnew, rfl⟩
    cases op with
    | add path body => exact add_works hp hnew
    | delete path => exact delete_works hp hnew
    | update path body moveTo => exact update_works hp hnew moveTo
  · rintro _ _ htaken e ⟨hw, hplaces⟩
    cases hw with
    | add hp => exact hplaces _ (by simp) (htaken _ hp)
    | delete hp => exact hplaces _ (by simp) (htaken _ hp)
    | update hp => exact hplaces _ (by simp) (htaken _ hp)
    | move hp => exact hplaces _ (by simp) (htaken _ hp)

end Draft

namespace Operation.Works

variable {t : FileTree} {base : RealPath} {rules : Option Rules} {op : Operation} {e e' : Effect}

theorem unique (h : op.Works t base rules e) (h' : op.Works t base rules e') : e = e' := by
  have hplace {path : Text} {p q : Path} (hp : Draft.guarded base rules path = .ok p)
      (hq : Draft.guarded base rules path = .ok q) : p = q := by
    rw [hp] at hq
    exact Except.ok.inj hq
  have hfile {p : Path} {a b : ByteArray} (ha : t.find p = .ok (.file a))
      (hb : t.find p = .ok (.file b)) : a = b := by
    rw [ha] at hb
    cases hb
    rfl
  have hsame {r : Patched} {a b : Text × Nat} (ha : r.outcome = .ok a) (hb : r.outcome = .ok b) :
      a = b := by
    rw [ha] at hb
    exact Except.ok.inj hb
  cases h with
  | add hp hn hbody =>
    cases h' with
    | add hp' hn' hbody' =>
      obtain rfl := hplace hp hp'
      cases hsame hbody hbody'
      rfl
  | delete hp hb =>
    cases h' with
    | delete hp' hb' =>
      obtain rfl := hplace hp hp'
      obtain rfl := hfile hb hb'
      rfl
  | update hp hb hbody =>
    cases h' with
    | update hp' hb' hbody' =>
      obtain rfl := hplace hp hp'
      obtain rfl := Text.encode_injective (hfile hb hb')
      cases hsame hbody hbody'
      rfl
  | move hp hb hbody hdest hne hn =>
    cases h' with
    | move hp' hb' hbody' hdest' hne' hn' =>
      obtain rfl := hplace hp hp'
      obtain rfl := hplace hdest hdest'
      obtain rfl := Text.encode_injective (hfile hb hb')
      cases hsame hbody hbody'
      rfl

variable (h : op.Works t base rules e)
include h

theorem nodup : e.places.Nodup := by
  cases h with
  | move hp hb hbody hdest hne => simpa using hne.symm
  | _ => simp

theorem keyed {x : Text × Nat} (hx : x ∈ e.fuzz) :
    ∃ p ∈ e.places, Draft.guarded base rules x.1 = .ok p := by
  cases h with
  | add => cases hx
  | delete => cases hx
  | update hp =>
    obtain rfl := List.mem_singleton.1 hx
    exact ⟨_, by simp, hp⟩
  | move hp =>
    obtain rfl := List.mem_singleton.1 hx
    exact ⟨_, by simp, hp⟩

theorem single {x : Text × Nat} (hx : x ∈ e.fuzz) : e.fuzz.lookup x.1 = some x.2 := by
  cases h with
  | add => cases hx
  | delete => cases hx
  | update =>
    obtain rfl := List.mem_singleton.1 hx
    exact List.lookup_cons_self
  | move =>
    obtain rfl := List.mem_singleton.1 hx
    exact List.lookup_cons_self

theorem perm : (e.changes.map fun c => base.resolve? c.path).Perm (e.places.map some) := by
  cases h with
  | add hp => simp [Draft.guarded_eq_ok hp]
  | delete hp => simp [Draft.guarded_eq_ok hp]
  | update hp => simp [Draft.guarded_eq_ok hp]
  | move hp _ _ hdest =>
    simpa [Draft.guarded_eq_ok hp, Draft.guarded_eq_ok hdest] using List.Perm.swap _ _ _

theorem sound {c : Change} (hc : c ∈ e.changes) :
    ∃ p, base.resolve? c.path = some p ∧ Target.Sound t ⟨c, p⟩ := by
  cases h with
  | add hp hn hbody =>
    obtain rfl := List.mem_singleton.1 hc
    exact ⟨_, Draft.guarded_eq_ok hp, .create rfl hn⟩
  | @delete path p b hp hb =>
    obtain rfl := List.mem_singleton.1 hc
    refine ⟨p, Draft.guarded_eq_ok hp, ?_⟩
    cases hd : Text.decode? b with
    | none => exact .raw rfl rfl hb
    | some former => exact .known (.inr rfl) rfl (Text.encode_of_decode? hd ▸ hb)
  | update hp hb hbody =>
    obtain rfl := List.mem_singleton.1 hc
    exact ⟨_, Draft.guarded_eq_ok hp, .known (.inl rfl) rfl hb⟩
  | move hp hb hbody hdest hne hn =>
    obtain rfl | hc := List.mem_cons.1 hc
    · exact ⟨_, Draft.guarded_eq_ok hdest, .create rfl hn⟩
    · obtain rfl := List.mem_singleton.1 hc
      exact ⟨_, Draft.guarded_eq_ok hp, .known (.inr rfl) rfl hb⟩

end Operation.Works

namespace Draft

variable {t : FileTree} {base : RealPath} {rules : Option Rules} {d d' : Draft} {op : Operation}
  {ops : List Operation} {e : Effect} {es : List Effect}

/-- The draft is what the effects come to together, each at places of its own. -/
structure Comprises (base : RealPath) (rules : Option Rules) (es : List Effect) (d : Draft) : Prop where
  claimed : d.claimed = es.flatMap Effect.places
  apart : (es.flatMap Effect.places).Nodup
  changes : d.changes = es.flatMap Effect.changes
  fuzz : d.fuzz = es.flatMap Effect.fuzz
  keyed : ∀ x ∈ d.fuzz, ∃ p ∈ d.claimed, guarded base rules x.1 = .ok p
  single : ∀ x ∈ d.fuzz, d.fuzz.lookup x.1 = some x.2

theorem Comprises.adds (h : Comprises base rules es d) (ha : Admits t base rules d op e)
    (hd : d.Adds e d') : Comprises base rules (es ++ [e]) d' := by
  obtain ⟨hw, hfree⟩ := ha
  -- A path that is updated is at a place that has not been claimed, so it is a new key.
  have hkey {path : Text} {p : Path} (hp : guarded base rules path = .ok p) (hmem : p ∈ e.places) :
      ∀ y ∈ d.fuzz, y.1 ≠ path := by
    rintro y hy rfl
    obtain ⟨q, hq, hguarded⟩ := h.keyed y hy
    rw [hp] at hguarded
    exact hfree p hmem (Except.ok.inj hguarded ▸ hq)
  have hfuzz : d.fuzz.setAll e.fuzz = d.fuzz ++ e.fuzz := by
    cases hw with
    | add => simp [Ledger.setAll]
    | delete => simp [Ledger.setAll]
    | update hp => exact Ledger.set_eq_append (hkey hp (by simp))
    | move hp => exact Ledger.set_eq_append (hkey hp (by simp))
  constructor
  case claimed => simp [hd.claimed, h.claimed]
  case apart =>
    simp only [List.flatMap_append, List.flatMap_singleton]
    refine List.nodup_append.2 ⟨h.apart, hw.nodup, fun p hp q hq he => ?_⟩
    exact hfree q hq (h.claimed ▸ he ▸ hp)
  case changes => simp [hd.changes, h.changes]
  case fuzz => rw [hd.fuzz, hfuzz, h.fuzz, List.flatMap_append, List.flatMap_singleton]
  case keyed =>
    rw [hd.fuzz, hfuzz, hd.claimed]
    intro x hx
    obtain hx | hx := List.mem_append.1 hx
    · obtain ⟨p, hp, hguarded⟩ := h.keyed x hx
      exact ⟨p, List.mem_append_left _ hp, hguarded⟩
    · obtain ⟨p, hp, hguarded⟩ := hw.keyed hx
      exact ⟨p, List.mem_append_right _ hp, hguarded⟩
  case single =>
    rw [hd.fuzz, hfuzz]
    intro x hx
    rw [List.lookup_append]
    obtain hx | hx := List.mem_append.1 hx
    · rw [h.single x hx, Option.some_or]
    · obtain ⟨p, hp, hguarded⟩ := hw.keyed hx
      rw [Ledger.lookup_eq_none (hkey hguarded hp), Option.none_or]
      exact hw.single hx

theorem operations_works (h : Comprises base rules es d) (ops : List Operation) :
    (operations t base rules ops).Ends d
      (fun _ d' => ∃ es', List.Forall₂ (Operation.Works t base rules) ops es' ∧
        Comprises base rules (es ++ es') d')
      (fun _ _ => ∀ es', List.Forall₂ (Operation.Works t base rules) ops es' →
        ¬((es ++ es').flatMap Effect.places).Nodup) := by
  induction ops generalizing es d with
  | nil =>
    refine ⟨[], .nil, ?_⟩
    rw [List.append_nil]
    exact h
  | cons op ops ih =>
    rw [operations, ends_bind]
    apply (operation_works op d).mono
    · rintro _ d' ⟨e, ha, hd⟩
      apply (ih (h.adds ha hd)).mono
      · rintro _ d'' ⟨es', hall, hd'⟩
        exact ⟨e :: es', .cons ha.1 hall, by simpa using hd'⟩
      · rintro _ _ hnone es' hall
        cases hall with
        | cons hw hall =>
          obtain rfl := hw.unique ha.1
          simpa using hnone _ hall
    · rintro _ _ hnone es' hall hapart
      cases hall with
      | @cons _ e _ _ hw hall =>
        refine hnone e ⟨hw, fun p hp hp' => ?_⟩
        simp only [List.flatMap_append, List.flatMap_cons] at hapart
        have hcross := (List.nodup_append.1 hapart).2.2
        exact hcross p (h.claimed ▸ hp') p (List.mem_append_left _ hp) rfl

def Ruled (t : FileTree) (base : RealPath) (respectRules : Bool) (rules : Option Rules) : Prop :=
  if respectRules then ∃ r, Rules.forPath t base.path = .ok r ∧ rules = some r else rules = none

theorem operations_works_ruled {respectRules : Bool} {patch : Text} (log : List Text)
    (hruled : Ruled t base respectRules rules)
    (honly : ∀ rules', Ruled t base respectRules rules' → rules' = rules)
    (hread : Envelope.read patch = .ok ops) :
    (operations t base rules ops).Ends { log := log }
      (fun _ d => ∃ rules ops es, Ruled t base respectRules rules ∧ Envelope.read patch = .ok ops ∧
        List.Forall₂ (Operation.Works t base rules) ops es ∧ Comprises base rules es d)
      (fun _ _ => ∀ rules ops es, Ruled t base respectRules rules → Envelope.read patch = .ok ops →
        List.Forall₂ (Operation.Works t base rules) ops es → ¬(es.flatMap Effect.places).Nodup) := by
  have hstart : Comprises base rules [] { log := log } := ⟨rfl, .nil, rfl, rfl, nofun, nofun⟩
  apply (operations_works hstart ops).mono
  · rintro _ d ⟨es, hall, hd⟩
    exact ⟨rules, ops, es, hruled, hread, hall, hd⟩
  · rintro _ _ hnone rules' ops' es hruled' hread' hall
    obtain rfl := honly rules' hruled'
    rw [hread] at hread'
    obtain rfl := Except.ok.inj hread'
    exact hnone es hall

/-- A patch is worked out if it can be read, each of its operations works by itself and no two of them
touch one place. -/
theorem ofPatch_works (t : FileTree) (base : RealPath) (respectRules : Bool) (patch : Text) :
    (ofPatch t base respectRules patch).Ends {}
      (fun _ d => ∃ rules ops es, Ruled t base respectRules rules ∧ Envelope.read patch = .ok ops ∧
        List.Forall₂ (Operation.Works t base rules) ops es ∧ Comprises base rules es d)
      (fun _ _ => ∀ rules ops es, Ruled t base respectRules rules → Envelope.read patch = .ok ops →
        List.Forall₂ (Operation.Works t base rules) ops es → ¬(es.flatMap Effect.places).Nodup) := by
  unfold ofPatch
  cases respectRules with
  | false =>
    cases hread : Envelope.read patch with
    | error e => exact fun _ _ _ _ h => nomatch h
    | ok ops =>
      have hruled : Ruled t base false none := rfl
      have hops := operations_works_ruled ["patch envelope holds ".toList ++ Text.ofNat ops.length ++
        " file operations".toList] hruled (fun _ h => h) hread
      rw [hread] at hops
      exact hops
  | true =>
    cases hrules : Rules.forPath t base.path with
    | error e =>
      rintro rules ops es ⟨r, hr, -⟩
      rw [hrules] at hr
      cases hr
    | ok r =>
      cases hread : Envelope.read patch with
      | error e => exact fun _ _ _ _ h => nomatch h
      | ok ops =>
        have honly : ∀ rules, Ruled t base true rules → rules = some r := by
          rintro rules ⟨r', hr, rfl⟩
          rw [hrules] at hr
          rw [Except.ok.inj hr]
        have hruled : Ruled t base true (some r) := ⟨r, hrules, rfl⟩
        have hops := operations_works_ruled ["patch envelope holds ".toList ++ Text.ofNat ops.length ++
          " file operations".toList] hruled honly hread
        rw [hread] at hops
        exact hops

theorem perm_places (hall : List.Forall₂ (Operation.Works t base rules) ops es) :
    ((es.flatMap Effect.changes).map fun c => base.resolve? c.path).Perm
      ((es.flatMap Effect.places).map some) := by
  induction hall with
  | nil => exact .nil
  | cons hw _ ih =>
    simp only [List.flatMap_cons, List.map_append]
    exact hw.perm.append ih

theorem works_of_effect (hall : List.Forall₂ (Operation.Works t base rules) ops es) (he : e ∈ es) :
    ∃ op ∈ ops, op.Works t base rules e := by
  induction hall with
  | nil => cases he
  | cons hw _ ih =>
    obtain rfl | he := List.mem_cons.1 he
    · exact ⟨_, List.mem_cons_self, hw⟩
    · obtain ⟨op, hop, hw⟩ := ih he
      exact ⟨op, List.mem_cons_of_mem _ hop, hw⟩

theorem works_of_operation (hall : List.Forall₂ (Operation.Works t base rules) ops es)
    (hop : op ∈ ops) : ∃ e ∈ es, op.Works t base rules e := by
  induction hall with
  | nil => cases hop
  | cons hw _ ih =>
    obtain rfl | hop := List.mem_cons.1 hop
    · exact ⟨_, List.mem_cons_self, hw⟩
    · obtain ⟨e, he, hw⟩ := ih hop
      exact ⟨e, List.mem_cons_of_mem _ he, hw⟩

theorem Comprises.planned (hd : Comprises base rules es d)
    (hall : List.Forall₂ (Operation.Works t base rules) ops es) :
    Change.Planned t base d.changes := by
  constructor
  case sound =>
    intro c hc
    rw [hd.changes] at hc
    obtain ⟨e, he, hc⟩ := List.mem_flatMap.1 hc
    obtain ⟨op, -, hw⟩ := works_of_effect hall he
    exact hw.sound hc
  case apart =>
    have hnodup : ((es.flatMap Effect.places).map some).Nodup :=
      List.Pairwise.map _ (fun p q hne he => hne (Option.some.inj he)) hd.apart
    have hchanges := (perm_places hall).nodup_iff.2 hnodup
    rw [hd.changes]
    exact List.pairwise_map.1 hchanges

theorem ofPatch_planned {respectRules : Bool} {patch : Text}
    (h : ofPatch t base respectRules patch {} = .ok () d) : Change.Planned t base d.changes := by
  obtain ⟨rules, ops, es, -, -, hall, hd⟩ := (ofPatch_works t base respectRules patch).of_ok h
  exact hd.planned hall

end Draft

namespace Applied

variable {t : FileTree} {base : RealPath} {patch : Text} {options : Options} {respectRules : Bool}
  {d : Draft} {policy : Policy}

theorem ofPatchAt_outcome (hdraft : Draft.ofPatch t base respectRules patch {} = .ok () d)
    (hpolicy : options.policy = some policy) :
    (ofPatchAt t base patch options respectRules).outcome =
      match (Commit.run t base.path d.changes policy options).outcome with
      | .error a => .error (.aborted a)
      | .ok s => .ok { s with fuzz := d.fuzz } := by
  simp only [ofPatchAt, hdraft, hpolicy]
  cases (Commit.run t base.path d.changes policy options).outcome <;> rfl

theorem ofPatchAt_tree (hdraft : Draft.ofPatch t base respectRules patch {} = .ok () d)
    (hpolicy : options.policy = some policy) :
    (ofPatchAt t base patch options respectRules).tree =
      (Commit.run t base.path d.changes policy options).tree := by
  simp only [ofPatchAt, hdraft, hpolicy]
  cases (Commit.run t base.path d.changes policy options).outcome <;> rfl

theorem ofPatch_eq_ofPatchAt {names : List Name} (hb : t.realPath names = .ok base) :
    ofPatch t names patch options respectRules = ofPatchAt t base patch options respectRules := by
  rw [ofPatch, hb]

theorem realPath_of_ofPatch {names : List Name} {s : Summary}
    (hs : (ofPatch t names patch options respectRules).outcome = .ok s) :
    ∃ base, t.realPath names = .ok base := by
  unfold ofPatch at hs
  split at hs
  · cases hs
  · next base hb => exact ⟨base, hb⟩

/-- A report on a patch is that of the commit of what has been worked out. -/
theorem ofPatchAt_eq_ok {s : Summary} (hs : (ofPatchAt t base patch options respectRules).outcome = .ok s) :
    ∃ d policy made, Draft.ofPatch t base respectRules patch {} = .ok () d ∧
      options.policy = some policy ∧
      (Commit.run t base.path d.changes policy options).outcome = .ok made ∧
      s = { made with fuzz := d.fuzz } ∧
      (ofPatchAt t base patch options respectRules).tree =
        (Commit.run t base.path d.changes policy options).tree := by
  cases hdraft : Draft.ofPatch t base respectRules patch {} with
  | error e d =>
    simp only [ofPatchAt, hdraft] at hs
    cases hs
  | ok u d =>
    cases hpolicy : options.policy with
    | none =>
      simp only [ofPatchAt, hdraft, hpolicy] at hs
      cases hs
    | some policy =>
      rw [ofPatchAt_outcome hdraft hpolicy] at hs
      cases hmade : (Commit.run t base.path d.changes policy options).outcome with
      | error a =>
        rw [hmade] at hs
        cases hs
      | ok made =>
        rw [hmade] at hs
        exact ⟨d, policy, made, rfl, rfl, hmade, (Except.ok.inj hs).symm, ofPatchAt_tree hdraft hpolicy⟩

end Applied

end Emend
