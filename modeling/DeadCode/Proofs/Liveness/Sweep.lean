import DeadCode.Liveness.Sweep
import DeadCode.Proofs.Arena
import DeadCode.Proofs.Liveness.Equations

/-! # What sweeps do to the live sets

A visit makes the equations hold inside its block, with what is live behind the merges of the
targets taken from the sets there were. From empty sets on, visits only add to the sets, and they
add only what is needed. So sweeps come to an end, and the sets in which they end solve the
equations.
-/
namespace DeadCode

namespace Facts

def at? (facts : Facts) (p : Place) : Option LiveSides := (nth? facts p.block).bind (·[p.index]?)

def LiveBefore (facts : Facts) (p : Place) (v : Value) : Prop :=
  ∃ s, facts.at? p = some s ∧ v ∈ s.before

def LiveAfter (facts : Facts) (p : Place) (v : Value) : Prop :=
  ∃ s, facts.at? p = some s ∧ v ∈ s.after

structure Within (facts more : Facts) : Prop where
  before : ∀ p v, facts.LiveBefore p v → more.LiveBefore p v
  after : ∀ p v, facts.LiveAfter p v → more.LiveAfter p v

theorem Within.refl (facts : Facts) : facts.Within facts := ⟨fun _ _ h => h, fun _ _ h => h⟩

theorem Within.trans {facts more most : Facts} (h : facts.Within more) (h' : more.Within most) :
    facts.Within most :=
  ⟨fun p v hv => h'.before p v (h.before p v hv), fun p v hv => h'.after p v (h.after p v hv)⟩

end Facts

theorem mem_frontIn_drop {sets : List LiveSides} {k : Nat} {v : Value} :
    v ∈ frontIn (sets.drop k) ↔ ∃ s, sets[k]? = some s ∧ v ∈ s.before := by
  cases hk : sets[k]? with
  | none =>
    rw [List.drop_eq_nil_of_le (List.getElem?_eq_none_iff.mp hk)]
    simp [frontIn]
  | some s =>
    obtain ⟨hlt, rfl⟩ := List.getElem?_eq_some_iff.mp hk
    rw [List.drop_eq_getElem_cons hlt]
    simp [frontIn]

theorem getElem?_pass (owner : Nat) (exit : List Int → ValueSet) {code : List Instr} {k : Nat}
    {x : Instr} (hx : code[k]? = some x) :
    ∃ s, (pass owner exit code)[k]? = some s ∧ s.before = x.liveBefore owner s.after ∧
      s.after = if x.kind = .terminator then exit x.node.targets
        else frontIn ((pass owner exit code).drop (k + 1)) := by
  induction code generalizing k with
  | nil => simp at hx
  | cons y rest ih =>
    cases k with
    | zero =>
      obtain rfl : y = x := by simpa using hx
      exact ⟨_, rfl, rfl, rfl⟩
    | succ k => exact ih (by simpa using hx)

namespace Func
variable {fn : Func} {facts : Facts}

theorem mem_entryIn {s : Int} {v : Value} :
    v ∈ fn.entryIn facts s ↔ fn.EntryLive facts.LiveBefore s v := by
  unfold entryIn EntryLive Facts.LiveBefore Facts.at?
  cases fn.block? s with
  | none => simp
  | some block =>
    cases hs : nth? facts s with
    | none => simp [hs]
    | some sets => simp [hs, mem_frontIn_drop]

theorem mem_edgeUses {b s : Int} {v : Value} : v ∈ fn.edgeUses b s ↔ fn.EdgeUse b s v := by
  unfold edgeUses EdgeUse
  cases fn.block? s with
  | none => simp
  | some block =>
    simp only [BasicBlock.usesFrom, Node.usesFrom, List.mem_flatMap, List.mem_map, List.mem_filter,
      decide_eq_true_eq, Option.some.injEq, exists_eq_left']
    constructor
    · rintro ⟨m, hm, e, ⟨he, rfl, hv⟩, rfl⟩
      exact ⟨hv, m, hm, he⟩
    · rintro ⟨hv, m, hm, he⟩
      exact ⟨m, hm, _, ⟨he, rfl, hv⟩, rfl⟩

/-- There is one pair of sets for every instruction. -/
def Fits (fn : Func) (facts : Facts) : Prop :=
  ∀ b, (nth? facts b).map List.length = (fn.block? b).map (·.code.length)

theorem Fits.exists_sets (h : fn.Fits facts) {b : Int} {block : BasicBlock}
    (hb : fn.block? b = some block) :
    ∃ sets, nth? facts b = some sets ∧ sets.length = block.code.length := by
  have he := h b
  rw [hb] at he
  exact Option.map_eq_some_iff.mp he

theorem Fits.exists_sides (h : fn.Fits facts) {p : Place} {x : Instr} (hx : fn.at? p = some x) :
    ∃ s, facts.at? p = some s := by
  obtain ⟨block, hb, hx⟩ := at?_eq_some_iff.mp hx
  obtain ⟨sets, hs, hlen⟩ := h.exists_sets hb
  obtain ⟨hlt, -⟩ := List.getElem?_eq_some_iff.mp hx
  refine ⟨sets[p.index], ?_⟩
  rw [Facts.at?, hs]
  exact List.getElem?_eq_getElem (hlen ▸ hlt)

theorem Fits.exists_instr (h : fn.Fits facts) {p : Place} {s : LiveSides}
    (hs : facts.at? p = some s) : ∃ x, fn.at? p = some x := by
  obtain ⟨sets, hb, hs⟩ := Option.bind_eq_some_iff.mp hs
  have he := h p.block
  rw [hb] at he
  obtain ⟨block, hblock, hlen⟩ := Option.map_eq_some_iff.mp he.symm
  obtain ⟨hlt, -⟩ := List.getElem?_eq_some_iff.mp hs
  exact ⟨_, at?_eq_some_iff.mpr ⟨block, hblock, List.getElem?_eq_getElem (hlen ▸ hlt)⟩⟩

theorem fits_noFacts (fn : Func) : fn.Fits fn.noFacts := by
  intro b
  cases b with
  | ofNat n => simp [noFacts, nth?, block?, List.getElem?_map, Function.comp_def]
  | negSucc n => rfl

theorem nth?_visit {b : Int} {block : BasicBlock} (hb : fn.block? b = some block) (c : Int) :
    nth? (fn.visit facts b) c =
      if b = c then (nth? facts c).map fun _ => pass fn.id (fn.exitOut facts b) block.code
      else nth? facts c := by
  simp only [visit, hb, nth?_modifyNth]

theorem visit_of_block?_eq_none {b : Int} (hb : fn.block? b = none) : fn.visit facts b = facts := by
  simp [visit, hb]

theorem Fits.visit (h : fn.Fits facts) (b : Int) : fn.Fits (fn.visit facts b) := by
  cases hb : fn.block? b with
  | none => rwa [visit_of_block?_eq_none hb]
  | some block =>
    intro c
    rw [nth?_visit hb]
    split
    · next hc =>
      subst hc
      obtain ⟨sets, hs, -⟩ := h.exists_sets hb
      simp [hs, hb]
    · exact h c

theorem at?_visit_of_ne {b : Int} {p : Place} (hne : p.block ≠ b) :
    (fn.visit facts b).at? p = facts.at? p := by
  cases hb : fn.block? b with
  | none => rw [visit_of_block?_eq_none hb]
  | some block => rw [Facts.at?, nth?_visit hb, if_neg hne.symm, Facts.at?]

/-- The equations at the instruction `x` at place `p`. What is live behind the merges of a target is
a parameter, since a visit takes it from the sets before the visit. -/
structure StepEquations (fn : Func) (entry before after : Place → Value → Prop) (p : Place)
    (x : Instr) : Prop where
  before_iff : ∀ v, before p v ↔
    v ∈ x.node.operands ∧ v.tracked = true ∨ after p v ∧ ¬ fn.Defines p v
  after_next : x.kind ≠ .terminator → ∀ v, after p v ↔ before ⟨p.block, p.index + 1⟩ v
  after_exit : x.kind = .terminator → ∀ v, after p v ↔
    ∃ s ∈ x.node.targets, fn.EntryLive entry s v ∨ fn.EdgeUse p.block s v

theorem LiveEquations.stepEquations {before after : Place → Value → Prop}
    (h : fn.LiveEquations before after) {p : Place} {x : Instr} (hx : fn.at? p = some x) :
    fn.StepEquations before before after p x :=
  ⟨fun v => h.before_iff p x v hx, fun hk v => h.after_next p.block p.index x v hx hk,
    fun hk v => h.after_exit p x v hx hk⟩

theorem defines_iff {p : Place} {x : Instr} (hx : fn.at? p = some x) {v : Value} :
    fn.Defines p v ↔ x.kind ≠ .terminator ∧ v = x.value fn.id := by
  constructor
  · rintro ⟨y, hy, hk, hv⟩
    rw [hx] at hy
    cases hy
    exact ⟨hk, hv⟩
  · rintro ⟨hk, hv⟩
    exact ⟨x, hx, hk, hv⟩

theorem Fits.stepEquations_visit (h : fn.Fits facts) {b : Int} {k : Nat} {x : Instr}
    (hx : fn.at? ⟨b, k⟩ = some x) :
    fn.StepEquations facts.LiveBefore (fn.visit facts b).LiveBefore (fn.visit facts b).LiveAfter
      ⟨b, k⟩ x := by
  obtain ⟨block, hb, hcode⟩ := at?_eq_some_iff.mp hx
  obtain ⟨sets, hs, -⟩ := h.exists_sets hb
  have hat : ∀ j, (fn.visit facts b).at? ⟨b, j⟩ =
      (pass fn.id (fn.exitOut facts b) block.code)[j]? := by
    intro j
    simp [Facts.at?, nth?_visit hb, hs]
  obtain ⟨s, hside, hbefore, hafter⟩ := getElem?_pass fn.id (fn.exitOut facts b) hcode
  have hB : ∀ v, (fn.visit facts b).LiveBefore ⟨b, k⟩ v ↔ v ∈ s.before := by
    simp [Facts.LiveBefore, hat, hside]
  have hA : ∀ v, (fn.visit facts b).LiveAfter ⟨b, k⟩ v ↔ v ∈ s.after := by
    simp [Facts.LiveAfter, hat, hside]
  refine ⟨?_, ?_, ?_⟩
  · intro v
    rw [hB, hA, hbefore, Instr.mem_liveBefore, defines_iff hx]
    tauto
  · intro hk v
    rw [hA, hafter, if_neg hk, mem_frontIn_drop]
    simp [Facts.LiveBefore, hat]
  · intro hk v
    rw [hA, hafter, if_pos hk, mem_exitOut]
    simp only [mem_entryIn, mem_edgeUses]

/-- Induction over a block of `n` instructions from its end to its start. -/
theorem backward {n : Nat} {P : Nat → Prop} (hend : ∀ k, n ≤ k → P k)
    (hstep : ∀ k, k < n → P (k + 1) → P k) (k : Nat) : P k := by
  induction hm : n - k generalizing k with
  | zero => exact hend k (by omega)
  | succ m ih => exact hstep k (by omega) (ih (k + 1) (by omega))

theorem EntryLive.imp {before before' : Place → Value → Prop} {s : Int} {v : Value}
    (h : fn.EntryLive before s v) (himp : ∀ p, before p v → before' p v) :
    fn.EntryLive before' s v := by
  obtain ⟨block, hb, hlive⟩ := h
  exact ⟨block, hb, himp _ hlive⟩

/-- If a value is live behind the merges of more targets, it is live in more places of the block. -/
theorem StepEquations.mono {entry before after entry' before' after' : Place → Value → Prop}
    {b : Int} {block : BasicBlock} (hb : fn.block? b = some block)
    (h : ∀ k x, fn.at? ⟨b, k⟩ = some x → fn.StepEquations entry before after ⟨b, k⟩ x)
    (h' : ∀ k x, fn.at? ⟨b, k⟩ = some x → fn.StepEquations entry' before' after' ⟨b, k⟩ x)
    {v : Value} (hentry : ∀ k t, fn.at? ⟨b, k⟩ = some t → t.kind = .terminator →
      ∀ s ∈ t.node.targets, fn.EntryLive entry s v → fn.EntryLive entry' s v)
    (hend : ∀ k, fn.at? ⟨b, k⟩ = none → ¬ before ⟨b, k⟩ v ∧ ¬ after ⟨b, k⟩ v) (k : Nat) :
    (before ⟨b, k⟩ v → before' ⟨b, k⟩ v) ∧ (after ⟨b, k⟩ v → after' ⟨b, k⟩ v) := by
  induction k using backward (n := block.code.length) with
  | hend k hk =>
    obtain ⟨hB, hA⟩ := hend k (by simp [at?, hb, hk])
    exact ⟨fun hv => absurd hv hB, fun hv => absurd hv hA⟩
  | hstep k hk ih =>
    have hx : fn.at? ⟨b, k⟩ = some block.code[k] := by simp [at?, hb, hk]
    have heq := h k _ hx
    have heq' := h' k _ hx
    have hA : after ⟨b, k⟩ v → after' ⟨b, k⟩ v := by
      by_cases ht : block.code[k].kind = .terminator
      · rw [heq.after_exit ht, heq'.after_exit ht]
        rintro ⟨s, hs, hlive | hedge⟩
        · exact ⟨s, hs, .inl (hentry k _ hx ht s hs hlive)⟩
        · exact ⟨s, hs, .inr hedge⟩
      · rw [heq.after_next ht, heq'.after_next ht]
        exact ih.1
    refine ⟨?_, hA⟩
    rw [heq.before_iff, heq'.before_iff]
    exact Or.imp_right (And.imp_left hA)

theorem Fits.not_live_of_at?_eq_none (h : fn.Fits facts) {p : Place} (hp : fn.at? p = none)
    (v : Value) : ¬ facts.LiveBefore p v ∧ ¬ facts.LiveAfter p v := by
  constructor
  · rintro ⟨s, hs, -⟩
    obtain ⟨x, hx⟩ := h.exists_instr hs
    simp [hp] at hx
  · rintro ⟨s, hs, -⟩
    obtain ⟨x, hx⟩ := h.exists_instr hs
    simp [hp] at hx

/-- The result of a visit depends on the earlier sets only through what is live behind the merges of
targets. -/
theorem Fits.visit_mono {more : Facts} (h : fn.Fits facts) (h' : fn.Fits more) {v : Value}
    (hentry : ∀ s, fn.EntryLive facts.LiveBefore s v → fn.EntryLive more.LiveBefore s v) {b : Int}
    {p : Place} (hp : p.block = b) :
    ((fn.visit facts b).LiveBefore p v → (fn.visit more b).LiveBefore p v) ∧
      ((fn.visit facts b).LiveAfter p v → (fn.visit more b).LiveAfter p v) := by
  obtain ⟨c, k⟩ := p
  obtain rfl : c = b := hp
  have hend := fun k hnone => (h.visit c).not_live_of_at?_eq_none (p := ⟨c, k⟩) hnone v
  cases hb : fn.block? c with
  | none =>
    obtain ⟨hB, hA⟩ := hend k (by simp [at?, hb])
    exact ⟨fun hv => absurd hv hB, fun hv => absurd hv hA⟩
  | some block =>
    exact StepEquations.mono hb (fun _ _ hx => h.stepEquations_visit hx)
      (fun _ _ hx => h'.stepEquations_visit hx) (fun _ _ _ _ s _ => hentry s) hend k

/-- The invariant of the analysis: the sets fit the function, a visit can only add to them, and
everything in them is needed. -/
structure Growing (fn : Func) (facts : Facts) : Prop where
  fits : fn.Fits facts
  rising : ∀ b, facts.Within (fn.visit facts b)
  before_needed : ∀ p v, facts.LiveBefore p v → v.tracked = true ∧ fn.Needs v p
  after_needed : ∀ p v, facts.LiveAfter p v → v.tracked = true ∧ fn.NeedsAfter v p

theorem at?_noFacts {p : Place} {s : LiveSides} (hs : fn.noFacts.at? p = some s) : s = ⟨∅, ∅⟩ := by
  obtain ⟨sets, hb, hs⟩ := Option.bind_eq_some_iff.mp hs
  obtain ⟨n, -, hn⟩ := nth?_eq_some_iff.mp hb
  simp only [noFacts, List.getElem?_map, Option.map_eq_some_iff] at hn
  obtain ⟨block, -, rfl⟩ := hn
  simp only [List.getElem?_map, Option.map_eq_some_iff] at hs
  obtain ⟨x, -, rfl⟩ := hs
  rfl

theorem growing_noFacts (fn : Func) : fn.Growing fn.noFacts := by
  have hB : ∀ p v, ¬ fn.noFacts.LiveBefore p v := by
    rintro p v ⟨s, hs, hv⟩
    simp [at?_noFacts hs] at hv
  have hA : ∀ p v, ¬ fn.noFacts.LiveAfter p v := by
    rintro p v ⟨s, hs, hv⟩
    simp [at?_noFacts hs] at hv
  refine ⟨fits_noFacts fn, fun b => ⟨?_, ?_⟩, ?_, ?_⟩
  · exact fun p v hv => absurd hv (hB p v)
  · exact fun p v hv => absurd hv (hA p v)
  · exact fun p v hv => absurd hv (hB p v)
  · exact fun p v hv => absurd hv (hA p v)

theorem Growing.needed_visit (h : fn.Growing facts) (b : Int) (k : Nat) (v : Value) :
    ((fn.visit facts b).LiveBefore ⟨b, k⟩ v → v.tracked = true ∧ fn.Needs v ⟨b, k⟩) ∧
      ((fn.visit facts b).LiveAfter ⟨b, k⟩ v → v.tracked = true ∧ fn.NeedsAfter v ⟨b, k⟩) := by
  cases hb : fn.block? b with
  | none =>
    rw [visit_of_block?_eq_none hb]
    exact ⟨h.before_needed _ v, h.after_needed _ v⟩
  | some block =>
    exact StepEquations.mono hb (fun _ _ hx => h.fits.stepEquations_visit hx)
      (fun _ _ hx => (liveEquations_needs fn).stepEquations hx)
      (fun _ _ _ _ _ _ hlive => hlive.imp fun p => h.before_needed p v)
      (fun _ hnone => (h.fits.visit b).not_live_of_at?_eq_none hnone v) k

theorem Growing.visit (h : fn.Growing facts) (c : Int) : fn.Growing (fn.visit facts c) := by
  refine ⟨h.fits.visit c, fun b => ?_, ?_, ?_⟩
  · -- only block `b` can differ, and there the sets come from a visit of smaller sets
    have hother : ∀ p : Place, p.block ≠ b →
        (fn.visit (fn.visit facts c) b).at? p = (fn.visit facts c).at? p :=
      fun p hp => at?_visit_of_ne hp
    have hsame : ∀ (p : Place) (v : Value), p.block = b →
        ((fn.visit facts c).LiveBefore p v → (fn.visit facts b).LiveBefore p v) ∧
          ((fn.visit facts c).LiveAfter p v → (fn.visit facts b).LiveAfter p v) := by
      intro p v hp
      by_cases hbc : b = c
      · rw [hbc]
        exact ⟨fun hv => hv, fun hv => hv⟩
      · have hat : (fn.visit facts c).at? p = facts.at? p := at?_visit_of_ne (hp ▸ hbc)
        unfold Facts.LiveBefore Facts.LiveAfter
        rw [hat]
        exact ⟨(h.rising b).before p v, (h.rising b).after p v⟩
    have hgrow := fun (p : Place) (v : Value) (hp : p.block = b) =>
      h.fits.visit_mono (h.fits.visit c) (fun _ hlive => hlive.imp fun q => (h.rising c).before q v) hp
    constructor
    · intro p v hv
      by_cases hp : p.block = b
      · exact (hgrow p v hp).1 ((hsame p v hp).1 hv)
      · rwa [Facts.LiveBefore, hother p hp]
    · intro p v hv
      by_cases hp : p.block = b
      · exact (hgrow p v hp).2 ((hsame p v hp).2 hv)
      · rwa [Facts.LiveAfter, hother p hp]
  · intro p v hv
    by_cases hp : p.block = c
    · subst hp
      exact (h.needed_visit p.block p.index v).1 hv
    · rw [Facts.LiveBefore, at?_visit_of_ne hp] at hv
      exact h.before_needed p v hv
  · intro p v hv
    by_cases hp : p.block = c
    · subst hp
      exact (h.needed_visit p.block p.index v).2 hv
    · rw [Facts.LiveAfter, at?_visit_of_ne hp] at hv
      exact h.after_needed p v hv

theorem Growing.sweep (h : fn.Growing facts) (order : List Int) :
    fn.Growing (fn.sweep order facts) ∧ facts.Within (fn.sweep order facts) := by
  induction order generalizing facts with
  | nil => exact ⟨h, .refl facts⟩
  | cons b rest ih =>
    obtain ⟨hgrow, hle⟩ := ih (h.visit b)
    exact ⟨hgrow, (h.rising b).trans hle⟩

theorem Fits.ext {other : Facts} (h : fn.Fits facts) (h' : fn.Fits other)
    (hat : ∀ p, facts.at? p = other.at? p) : facts = other := by
  refine List.ext_getElem? fun n => ?_
  have hlen := (h n).trans (h' n).symm
  simp only [nth?_natCast] at hlen
  cases hf : facts[n]? with
  | none =>
    cases ho : other[n]? with
    | none => rfl
    | some sets => simp [hf, ho] at hlen
  | some sets =>
    cases ho : other[n]? with
    | none => simp [hf, ho] at hlen
    | some sets' =>
      refine congrArg some (List.ext_getElem? fun k => ?_)
      simpa [Facts.at?, hf, ho] using hat ⟨n, k⟩

theorem Fits.at?_eq_none_iff (h : fn.Fits facts) {p : Place} :
    facts.at? p = none ↔ fn.at? p = none := by
  constructor
  · intro hn
    cases hx : fn.at? p with
    | none => rfl
    | some x =>
      obtain ⟨s, hs⟩ := h.exists_sides hx
      simp [hn] at hs
  · intro hn
    cases hs : facts.at? p with
    | none => rfl
    | some s =>
      obtain ⟨x, hx⟩ := h.exists_instr hs
      simp [hn] at hx

theorem Fits.eq_of_within {other : Facts} (h : fn.Fits facts) (h' : fn.Fits other)
    (hle : facts.Within other) (hge : other.Within facts) : facts = other := by
  refine h.ext h' fun p => ?_
  cases hs : facts.at? p with
  | none => exact (h'.at?_eq_none_iff.mpr (h.at?_eq_none_iff.mp hs)).symm
  | some s =>
    obtain ⟨x, hx⟩ := h.exists_instr hs
    obtain ⟨t, ht⟩ := h'.exists_sides hx
    have hbefore : s.before = t.before := by
      ext v
      have hto := hle.before p v
      have hfrom := hge.before p v
      simp only [Facts.LiveBefore, hs, ht, Option.some.injEq, exists_eq_left'] at hto hfrom
      exact ⟨hto, hfrom⟩
    have hafter : s.after = t.after := by
      ext v
      have hto := hle.after p v
      have hfrom := hge.after p v
      simp only [Facts.LiveAfter, hs, ht, Option.some.injEq, exists_eq_left'] at hto hfrom
      exact ⟨hto, hfrom⟩
    obtain ⟨sb, sa⟩ := s
    obtain ⟨tb, ta⟩ := t
    dsimp only at hbefore hafter
    rw [ht, hbefore, hafter]

/-- If a sweep changes nothing, then none of its visits does. -/
theorem Growing.visit_eq (h : fn.Growing facts) {order : List Int}
    (hs : fn.sweep order facts = facts) {b : Int} (hb : b ∈ order) : fn.visit facts b = facts := by
  induction order with
  | nil => simp at hb
  | cons c rest ih =>
    have hc : fn.visit facts c = facts := by
      refine (h.visit c).fits.eq_of_within h.fits ?_ (h.rising c)
      have hle := ((h.visit c).sweep rest).2
      change fn.sweep rest (fn.visit facts c) = facts at hs
      rwa [hs] at hle
    rcases List.mem_cons.mp hb with rfl | hb
    · exact hc
    · refine ih ?_ hb
      change fn.sweep rest (fn.visit facts c) = facts at hs
      rwa [hc] at hs

/-- Sets that no visit changes solve the equations. -/
theorem Growing.liveEquations (h : fn.Growing facts) (hs : ∀ b ∈ fn.blockIds, fn.visit facts b = facts) :
    fn.LiveEquations facts.LiveBefore facts.LiveAfter := by
  have heq : ∀ {p : Place} {x}, fn.at? p = some x →
      fn.StepEquations facts.LiveBefore facts.LiveBefore facts.LiveAfter p x := by
    intro p x hx
    obtain ⟨block, hb, -⟩ := at?_eq_some_iff.mp hx
    have hvisit := h.fits.stepEquations_visit hx
    rwa [hs p.block (mem_blockIds_of_block? hb)] at hvisit
  constructor
  · intro p x v hx
    exact (heq hx).before_iff v
  · intro b k x v hx hk
    exact (heq hx).after_next hk v
  · intro p t v ht hk
    exact (heq ht).after_exit hk v

end Func
end DeadCode
