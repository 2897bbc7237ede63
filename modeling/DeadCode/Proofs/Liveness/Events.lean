import DeadCode.Proofs.Elimination.Meaning
import DeadCode.Proofs.Liveness.Exact

/-! # The live sets decide what a run shows

Two runs stand at the same place of a function, and their data agree on what is live there. What the
instruction at that place reads is live, so both runs compute the same, and then agree on what is
live behind it. A terminator sends both to the same target, and what the merges take there was live
where the runs came from. So the runs never part, and show the same events however long they go on.
-/
namespace DeadCode

variable {D : Type}

theorem BasicBlock.drop_merges (block : BasicBlock) :
    block.code.drop block.merges.length = block.body := by
  rw [← block.merges_append_body, List.drop_left]

namespace Meaning
variable {m n : Meaning D} {σ τ : Store D}

structure Alike (m n : Meaning D) : Prop where
  compute : m.compute = n.compute
  constant : m.constant = n.constant
  choose : m.choose = n.choose

/-- Each value of the set has the same datum in both environments: arguments have theirs from the
meaning, instructions from the store. -/
def AgreeOn (m n : Meaning D) (live : Value → Prop) (σ τ : Store D) : Prop :=
  ∀ v, live v → m.read σ v = n.read τ v

/-- The events of a run that has come to the end of a block: the event there, and `k` more. -/
def follow (m : Meaning D) (fn : Func) (k : Nat) :
    Option (Event D × Option (Entering D)) → List (Event D)
  | none => []
  | some (event, none) => [event]
  | some (event, some next) => event :: m.events fn k next

/-- The first `k` events of a run that starts at the instruction at this place. -/
def resume (m : Meaning D) (fn : Func) : Nat → Place → Store D → List (Event D)
  | 0, _, _ => []
  | k + 1, p, σ =>
    match fn.block? p.block with
    | some block => m.follow fn k (m.body p.block (block.code.drop p.index) σ)
    | none => []

theorem events_succ (m : Meaning D) (fn : Func) (k : Nat) (e : Entering D) :
    m.events fn (k + 1) e = m.follow fn k (m.step fn e) := by
  rw [events]
  rcases m.step fn e with _ | ⟨event, _ | next⟩
  · rfl
  · rfl
  · rfl

theorem read_set (m : Meaning D) (σ : Store D) (i : Int) (d : D) (v : Value) :
    m.read (σ.set i d) v = if v.instr? = some i then d else m.read σ v := by
  cases v with
  | absent => rfl
  | arg owner j => rfl
  | const owner c => rfl
  | instr owner j => simp [read, Store.set, Value.instr?]

theorem Alike.read_eq (h : m.Alike n) {v : Value} (hv : v ≠ .absent)
    (htracked : v.tracked = true → m.read σ v = n.read τ v) : m.read σ v = n.read τ v := by
  cases v with
  | absent => exact absurd rfl hv
  | arg owner i => exact htracked rfl
  | const owner c => exact congrFun h.constant c
  | instr owner i => exact htracked rfl

end Meaning

namespace Func
variable {fn : Func}

theorem Readable.ne_absent {v : Value} (h : fn.Readable v) : v ≠ .absent := by
  intro hv
  subst hv
  exact h

theorem WellFormed.not_merge_of_mem_drop (hw : fn.WellFormed) {block : BasicBlock}
    (hblock : block ∈ fn.blocks) {k : Nat} {x y : Instr} (hx : block.code[k]? = some x)
    (hk : x.kind ≠ .merge) (hy : y ∈ block.code.drop k) : y.kind ≠ .merge := by
  obtain ⟨hlt, rfl⟩ := List.getElem?_eq_some_iff.mp hx
  have hp := (hw.pairwise_merges hblock).sublist (List.drop_sublist k block.code)
  rw [List.drop_eq_getElem_cons hlt] at hp hy
  intro hm
  rcases List.mem_cons.mp hy with rfl | hy
  · exact hk hm
  · exact hk ((List.pairwise_cons.mp hp).1 y hy hm)

namespace LiveEquations
variable {before after : Place → Value → Prop} {m n : Meaning D} {σ τ : Store D}

theorem read_operand (h : fn.LiveEquations before after) (hw : fn.WellFormed) (hmn : m.Alike n)
    {p : Place} {x : Instr} (hx : fn.at? p = some x) (hag : m.AgreeOn n (before p) σ τ) :
    ∀ v ∈ x.node.operands, m.read σ v = n.read τ v := by
  intro v hv
  have hread := hw.operands x (mem_code_of_at? hx) v (Node.mem_uses_iff.mpr (.inl hv))
  apply hmn.read_eq hread.ne_absent
  intro htracked
  exact hag v ((h.before_iff p x v hx).mpr (.inl ⟨hv, htracked⟩))

theorem agreeOn_set (h : fn.LiveEquations before after) {p : Place} {x : Instr}
    (hx : fn.at? p = some x) (hag : m.AgreeOn n (before p) σ τ) (d : D) :
    m.AgreeOn n (after p) (σ.set x.id d) (τ.set x.id d) := by
  intro v hv
  rw [Meaning.read_set, Meaning.read_set]
  by_cases hi : v.instr? = some x.id
  · rw [if_pos hi, if_pos hi]
  · rw [if_neg hi, if_neg hi]
    apply hag
    apply (h.before_iff p x v hx).mpr
    refine .inr ⟨hv, fun ⟨y, hy, _, hvy⟩ => hi ?_⟩
    obtain rfl := Option.some.inj (hx.symm.trans hy)
    rw [hvy]
    rfl

theorem agreeOn_after_terminator (h : fn.LiveEquations before after) {p : Place} {t : Instr}
    (ht : fn.at? p = some t) (hk : t.kind = .terminator) (hag : m.AgreeOn n (before p) σ τ) :
    m.AgreeOn n (after p) σ τ := by
  intro v hv
  apply hag
  exact (h.before_iff p t v ht).mpr (.inr ⟨hv, not_defines_of_terminator ht hk⟩)

/-- A merge takes the same datum in both runs: it has an edge for the block that they come from, and
the value of this edge was live at the end of that block. -/
theorem mergeDatum_eq (h : fn.LiveEquations before after) (hw : fn.WellFormed) (hmn : m.Alike n)
    {p : Place} {t : Instr} (ht : fn.at? p = some t) (hk : t.kind = .terminator) {s : Int}
    (hs : s ∈ t.node.targets) {target : BasicBlock} (hb : fn.block? s = some target) {x : Instr}
    (hx : x ∈ target.merges) (hag : m.AgreeOn n (after p) σ τ) :
    m.mergeDatum σ p.block x = n.mergeDatum τ p.block x := by
  have hcode := BasicBlock.mem_code_of_mem_merges hx
  have hpred : p.block ∈ x.node.edges.map (·.pred) :=
    ((hw.edges s target hb x hcode (BasicBlock.kind_of_mem_merges hx)).2 p.block).mpr
      (hw.mem_succ ht hk hs)
  unfold Meaning.mergeDatum
  cases hf : x.node.edges.find? (·.pred = p.block) with
  | none =>
    obtain ⟨e, he, hep⟩ := List.mem_map.mp hpred
    have hnone := List.find?_eq_none.mp hf e he
    simp [hep] at hnone
  | some e =>
    have he : ⟨p.block, e.value⟩ ∈ x.node.edges := by
      have hep : e.pred = p.block := by simpa using List.find?_some hf
      rw [← hep]
      exact List.mem_of_find?_eq_some hf
    have hread := hw.operands x (mem_code hb hcode) e.value (Node.mem_uses_iff.mpr (.inr ⟨_, he⟩))
    apply hmn.read_eq hread.ne_absent
    intro htracked
    apply hag
    exact (h.after_exit p t e.value ht hk).mpr ⟨s, hs, .inr ⟨htracked, target, hb, x, hx, he⟩⟩

theorem agreeOn_enter (h : fn.LiveEquations before after) (hw : fn.WellFormed) (hmn : m.Alike n)
    {p : Place} {t : Instr} (ht : fn.at? p = some t) (hk : t.kind = .terminator) {s : Int}
    (hs : s ∈ t.node.targets) {target : BasicBlock} (hb : fn.block? s = some target)
    (hag : m.AgreeOn n (after p) σ τ) :
    m.AgreeOn n (before ⟨s, target.merges.length⟩) (m.enter target σ (some p.block))
      (n.enter target τ (some p.block)) := by
  intro v hv
  have hout : m.read σ v = n.read τ v :=
    hag v ((h.after_exit p t v ht hk).mpr ⟨s, hs, .inl ⟨target, hb, hv⟩⟩)
  cases v with
  | absent => exact hout
  | arg owner i => exact hout
  | const owner c => exact hout
  | instr owner i =>
    change m.enter target σ (some p.block) i = n.enter target τ (some p.block) i
    unfold Meaning.enter
    dsimp only
    cases hf : target.merges.find? (·.id = i) with
    | none => exact hout
    | some x => exact h.mergeDatum_eq hw hmn ht hk hs hb (List.mem_of_find?_eq_some hf) hag

/-- Runs that leave a terminator for the same target, in agreement on what is live after it, show
the same `k` events. -/
def LeaveTogether (fn : Func) (after : Place → Value → Prop) (m n : Meaning D) (k : Nat) : Prop :=
  ∀ p t s σ τ, fn.at? p = some t → t.kind = .terminator → s ∈ t.node.targets →
    m.AgreeOn n (after p) σ τ →
    m.events fn k ⟨s, some p.block, σ⟩ = n.events fn k ⟨s, some p.block, τ⟩

theorem follow_body_eq (h : fn.LiveEquations before after) (hw : fn.WellFormed) (hmn : m.Alike n)
    {k : Nat} (hlater : LeaveTogether fn after m n k) {b : Int} {block : BasicBlock}
    (hb : fn.block? b = some block) {j : Nat} {code : List Instr} (hcode : block.code.drop j = code)
    (hnone : ∀ x ∈ code, x.kind ≠ .merge) (hag : m.AgreeOn n (before ⟨b, j⟩) σ τ) :
    m.follow fn k (m.body b code σ) = n.follow fn k (n.body b code τ) := by
  induction code generalizing j σ τ with
  | nil => rfl
  | cons x rest ih =>
    have hx : fn.at? ⟨b, j⟩ = some x := by
      apply at?_eq_some_iff.mpr
      refine ⟨block, hb, ?_⟩
      rw [← List.head?_drop, hcode, List.head?_cons]
    have hrest : block.code.drop (j + 1) = rest := by
      rw [← List.tail_drop, hcode, List.tail_cons]
    have hread := h.read_operand hw hmn hx hag
    obtain ⟨id, node⟩ := x
    cases node with
    | plain op args =>
      have hargs : args.map (m.read σ) = args.map (n.read τ) := List.map_congr_left hread
      simp only [Meaning.body, hargs, hmn.compute]
      apply ih hrest fun y hy => hnone y (List.mem_cons_of_mem _ hy)
      intro v hv
      exact h.agreeOn_set hx hag _ v ((h.after_next b j _ v hx (by simp [Instr.kind, Node.kind])).mpr hv)
    | merge edges => exact absurd rfl (hnone _ List.mem_cons_self)
    | term op cond args succ =>
      obtain ⟨hargs, hdatum⟩ := Meaning.term_data_eq op succ hread
      simp only [Meaning.body, hargs, hdatum, hmn.choose]
      cases hs : (n.choose op (if cond = .absent then none else some (n.read τ cond))
        (args.map (n.read τ)) succ).bind (succ[·]?) with
      | none => rfl
      | some s =>
        obtain ⟨i, -, hi⟩ := Option.bind_eq_some_iff.mp hs
        apply congrArg (_ :: ·)
        exact hlater ⟨b, j⟩ _ s σ τ hx rfl (List.mem_of_getElem? hi)
          (h.agreeOn_after_terminator hx rfl hag)

theorem leaveTogether (h : fn.LiveEquations before after) (hw : fn.WellFormed) (hmn : m.Alike n)
    (k : Nat) : LeaveTogether fn after m n k := by
  induction k with
  | zero =>
    intro p t s σ τ _ _ _ _
    rfl
  | succ k ih =>
    intro p t s σ τ ht hk hs hag
    rw [Meaning.events_succ, Meaning.events_succ]
    unfold Meaning.step
    cases hb : fn.block? s with
    | none => rfl
    | some target =>
      apply h.follow_body_eq hw hmn ih hb target.drop_merges
      · intro x hx
        exact hw.not_merge_of_mem_body (mem_blocks hb) hx
      · exact h.agreeOn_enter hw hmn ht hk hs hb hag

theorem resume_eq (h : fn.LiveEquations before after) (hw : fn.WellFormed) (hmn : m.Alike n)
    {p : Place} {x : Instr} (hx : fn.at? p = some x) (hk : x.kind ≠ .merge)
    (hag : m.AgreeOn n (before p) σ τ) (k : Nat) : m.resume fn k p σ = n.resume fn k p τ := by
  cases k with
  | zero => rfl
  | succ k =>
    obtain ⟨block, hb, hx⟩ := at?_eq_some_iff.mp hx
    simp only [Meaning.resume, hb]
    apply h.follow_body_eq hw hmn (h.leaveTogether hw hmn k) hb rfl
    · intro y hy
      exact hw.not_merge_of_mem_drop (mem_blocks hb) hx hk hy
    · exact hag

end LiveEquations

/-- The live sets determine what can be observed of a run. Two runs that start at the same
instruction, behind the merges of its block, in environments that agree on what is live before it,
make the same events. So do two runs that leave a terminator for the same target and agree on what
is live after it. -/
theorem analyze_decides_events (hc : fn.Consistent) (hv : fn.malformed? = none) {m n : Meaning D}
    (hmn : m.Alike n) :
    ∃ lv, fn.analyze = .ok lv ∧ ∀ p x, fn.at? p = some x → ∃ e, lv.of fn x.id = .ok e ∧
      (x.kind ≠ .merge → ∀ σ τ, m.AgreeOn n (· ∈ e.sides.before) σ τ →
        ∀ k, m.resume fn k p σ = n.resume fn k p τ) ∧
      (x.kind = .terminator → ∀ s ∈ x.node.targets, ∀ σ τ, m.AgreeOn n (· ∈ e.sides.after) σ τ →
        ∀ k, m.events fn k ⟨s, some p.block, σ⟩ = n.events fn k ⟨s, some p.block, τ⟩) := by
  have hw := malformed?_eq_none_iff.mp hv
  have hlive := liveEquations_settled (blockIds_subset_visitOrder fn)
  refine ⟨fn.liveness, analyze_eq hv, ?_⟩
  intro p x hx
  obtain ⟨sides, hsides, hfind⟩ := hc.find?_liveness hx
  refine ⟨_, of_liveness hfind, ?_, ?_⟩
  · intro hk σ τ hag k
    apply hlive.resume_eq hw hmn hx hk
    simpa [Meaning.AgreeOn, Facts.LiveBefore, hsides] using hag
  · intro hk s hs σ τ hag k
    apply hlive.leaveTogether hw hmn k p x s σ τ hx hk hs
    simpa [Meaning.AgreeOn, Facts.LiveAfter, hsides] using hag

theorem analyze_countdown_decides_events :
    countdown.Consistent ∧ countdown.malformed? = none ∧
      Meaning.decrementing.Alike { Meaning.decrementing with argument := fun _ => 8 } ∧
      (Meaning.decrementing.resume countdown 9 ⟨1, 2⟩ fun i => if i = 1 then 3 else 0).length = 4 ∧
      Meaning.decrementing.resume countdown 9 ⟨1, 2⟩ (fun i => if i = 1 then 3 else 0) =
        Meaning.resume { Meaning.decrementing with argument := fun _ => 8 } countdown 9 ⟨1, 2⟩
          fun i => if i = 1 then 3 else if i = 2 then 0 else 7 := by
  have hmn : Meaning.decrementing.Alike { Meaning.decrementing with argument := fun _ => 8 } :=
    ⟨rfl, rfl, rfl⟩
  refine ⟨consistent_countdown, malformed?_countdown, hmn, by decide, ?_⟩
  obtain ⟨lv, hlv, hruns⟩ := analyze_decides_events consistent_countdown malformed?_countdown hmn
  have hat : countdown.at? ⟨1, 2⟩ = some ⟨3, .plain "sub" [.instr 0 1, .const 0 1]⟩ := by decide
  obtain ⟨e, he, hrun, -⟩ := hruns _ _ hat
  have hbefore : (countdown.analyze.toOption.bind fun lv => (lv.of countdown 3).toOption).map
      (·.sides.before.members) = some [.instr 0 1, .instr 0 2] := by decide
  simp only [hlv, he, Except.toOption, Option.bind_some, Option.map_some, Option.some.injEq] at hbefore
  apply hrun (by decide)
  intro v hv
  rw [ValueSet.mem_def, hbefore] at hv
  simp only [List.mem_cons, List.not_mem_nil, or_false] at hv
  rcases hv with rfl | rfl
  · rfl
  · rfl

end Func
end DeadCode
