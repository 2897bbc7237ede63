import DeadCode.Execution
import DeadCode.Proofs.Elimination.Course
import Mathlib.Data.Option.Basic

/-! # Elimination preserves meaning

A run of a function and a run of what a removal leaves of it are followed side by side. The two
stores agree on every instruction that stays. What stays reads nothing that goes, so it computes the
same data, and the events of the two runs are the same, block by block and however long they go on.
-/
namespace DeadCode

variable {D : Type}

def Store.AgreeOff (ins : List Int) (σ τ : Store D) : Prop := ∀ i, i ∉ ins → σ i = τ i

def Entering.AgreeOff (ins : List Int) (e f : Entering D) : Prop :=
  e.block = f.block ∧ e.origin = f.origin ∧ Store.AgreeOff ins e.store f.store

/-- The two blocks made the same event, and the runs continue in agreement or both stop. -/
def SameStep (ins : List Int) : Option (Event D × Option (Entering D)) →
    Option (Event D × Option (Entering D)) → Prop :=
  Option.Rel fun p q => p.1 = q.1 ∧ Option.Rel (Entering.AgreeOff ins) p.2 q.2

namespace Store

theorem AgreeOff.set {ins : List Int} {σ τ : Store D} (h : AgreeOff ins σ τ) (i : Int) (d : D) :
    AgreeOff ins (σ.set i d) (τ.set i d) := by
  intro j hj
  unfold Store.set
  split
  · rfl
  · exact h j hj

theorem AgreeOff.set_left {ins : List Int} {σ τ : Store D} (h : AgreeOff ins σ τ) {i : Int}
    (hi : i ∈ ins) (d : D) : AgreeOff ins (σ.set i d) τ := by
  intro j hj
  unfold Store.set
  split
  · next he => exact absurd (he ▸ hi) hj
  · exact h j hj

end Store

theorem Meaning.term_data_eq {m n : Meaning D} {σ τ : Store D} (op : String) {cond : Value}
    {args : List Value} (succ : List Int)
    (h : ∀ v ∈ (Node.term op cond args succ).operands, m.read σ v = n.read τ v) :
    args.map (m.read σ) = args.map (n.read τ) ∧
      (if cond = .absent then none else some (m.read σ cond)) =
        if cond = .absent then none else some (n.read τ cond) := by
  simp only [Node.operands] at h
  by_cases hcond : cond = .absent
  · simp only [hcond, ↓reduceIte] at h ⊢
    exact ⟨List.map_congr_left h, trivial⟩
  · simp only [hcond, ↓reduceIte, List.forall_mem_cons] at h ⊢
    exact ⟨List.map_congr_left h.2, by rw [h.1]⟩

namespace Func.Removable
variable {fn : Func} {ins : List Int}

theorem merges_without (hw : fn.WellFormed) {block : BasicBlock} (hblock : block ∈ fn.blocks) :
    (block.without ins).merges = block.merges.filter (·.id ∉ ins) ∧
      (block.without ins).body = block.body.filter (·.id ∉ ins) := by
  have hcode : (block.without ins).code =
      block.merges.filter (·.id ∉ ins) ++ block.body.filter (·.id ∉ ins) := by
    rw [← List.filter_append, block.merges_append_body]
    rfl
  have hmerges : ∀ x ∈ block.merges.filter (·.id ∉ ins), decide (x.kind = .merge) = true := by
    intro x hx
    simpa using BasicBlock.kind_of_mem_merges (List.mem_filter.mp hx).1
  have hbody : ∀ x ∈ block.body.filter (·.id ∉ ins), decide (x.kind = .merge) = false := by
    intro x hx
    simpa using hw.not_merge_of_mem_body hblock (List.mem_filter.mp hx).1
  have htake : (block.body.filter (·.id ∉ ins)).takeWhile (·.kind = .merge) = [] := by
    cases hb : block.body.filter (·.id ∉ ins) with
    | nil => rfl
    | cons y rest =>
      rw [hb] at hbody
      exact List.takeWhile_cons_of_neg (by simpa using hbody y (by simp))
  have hdrop : (block.body.filter (·.id ∉ ins)).dropWhile (·.kind = .merge) =
      block.body.filter (·.id ∉ ins) := by
    have hs := List.takeWhile_append_dropWhile (p := fun x : Instr => decide (x.kind = .merge))
      (l := block.body.filter (·.id ∉ ins))
    rwa [htake, List.nil_append] at hs
  constructor
  · unfold BasicBlock.merges at *
    rw [hcode, List.takeWhile_append_of_pos hmerges, htake, List.append_nil]
  · unfold BasicBlock.body at *
    rw [hcode, List.dropWhile_append_of_pos hmerges, hdrop]

theorem read_eq (hr : fn.Removable ins) (hw : fn.WellFormed) (m : Meaning D) {σ τ : Store D}
    (h : Store.AgreeOff ins σ τ) {x : Instr} (hx : x ∈ fn.code) (hstay : x.id ∉ ins) {v : Value}
    (hv : v ∈ x.node.uses) : m.read σ v = m.read τ v := by
  cases v with
  | absent => rfl
  | arg owner i => rfl
  | const owner n => rfl
  | instr owner i =>
    obtain ⟨rfl, -⟩ := hw.operands x hx _ hv
    exact h i fun hi => hr.unused x hx hstay i hi hv

theorem mergeDatum_eq (hr : fn.Removable ins) (hw : fn.WellFormed) (m : Meaning D)
    {σ τ : Store D} (h : Store.AgreeOff ins σ τ) {x : Instr} (hx : x ∈ fn.code)
    (hstay : x.id ∉ ins) (hk : x.kind = .merge) (p : Int) :
    m.mergeDatum σ p x = m.mergeDatum τ p x := by
  obtain ⟨id, node⟩ := x
  cases node with
  | plain op args => cases hk
  | term op cond args succ => cases hk
  | merge edges =>
    unfold Meaning.mergeDatum
    dsimp only [Node.edges]
    cases he : edges.find? (·.pred = p) with
    | none => exact h id hstay
    | some e =>
      refine hr.read_eq hw m h hx hstay ?_
      exact List.mem_map_of_mem (List.mem_of_find?_eq_some he)

theorem enter_agreeOff (hr : fn.Removable ins) (hw : fn.WellFormed) (m : Meaning D)
    {block : BasicBlock} {b : Int} (hb : fn.block? b = some block) {σ τ : Store D}
    (h : Store.AgreeOff ins σ τ) (origin : Option Int) :
    Store.AgreeOff ins (m.enter block σ origin) (m.enter (block.without ins) τ origin) := by
  cases origin with
  | none => exact h
  | some p =>
    intro i hi
    have hfind : (block.without ins).merges.find? (·.id = i) = block.merges.find? (·.id = i) := by
      rw [(merges_without hw (mem_blocks hb)).1, find?_filter_notMem hi]
    unfold Meaning.enter
    dsimp only
    rw [hfind]
    cases hx : block.merges.find? (·.id = i) with
    | none => exact h i hi
    | some x =>
      have hmem := List.mem_of_find?_eq_some hx
      have hid : x.id = i := by simpa using List.find?_some hx
      exact hr.mergeDatum_eq hw m h (mem_code hb (BasicBlock.mem_code_of_mem_merges hmem))
        (hid ▸ hi) (BasicBlock.kind_of_mem_merges hmem) p

/-- The remaining code computes the same data and ends in the same event. -/
theorem body_sameStep (hr : fn.Removable ins) (hc : fn.Consistent) (hw : fn.WellFormed)
    (m : Meaning D) (b : Int) {code : List Instr} (hcode : ∀ x ∈ code, x ∈ fn.code)
    {σ τ : Store D} (h : Store.AgreeOff ins σ τ) :
    SameStep ins (m.body b code σ) (m.body b (code.filter (·.id ∉ ins)) τ) := by
  induction code generalizing σ τ with
  | nil => exact .none
  | cons x rest ih =>
    have hx := hcode x List.mem_cons_self
    have hrest : ∀ y ∈ rest, y ∈ fn.code := fun y hy => hcode y (List.mem_cons_of_mem x hy)
    obtain ⟨id, node⟩ := x
    by_cases hgo : id ∈ ins
    · rw [List.filter_cons_of_neg (by simpa using hgo)]
      cases node with
      | plain op args => exact ih hrest (h.set_left hgo _)
      | merge edges => exact ih hrest h
      | term op cond args succ => exact absurd hgo (hr.id_notMem hc hx rfl)
    · rw [List.filter_cons_of_pos (by simpa using hgo)]
      have hread : ∀ v ∈ node.uses, m.read σ v = m.read τ v :=
        fun v hv => hr.read_eq hw m h hx hgo hv
      cases node with
      | plain op args =>
        have hargs : args.map (m.read σ) = args.map (m.read τ) := List.map_congr_left hread
        simp only [Meaning.body, hargs]
        exact ih hrest (h.set id _)
      | merge edges => exact ih hrest h
      | term op cond args succ =>
        obtain ⟨hargs, hdatum⟩ := Meaning.term_data_eq op succ hread
        simp only [Meaning.body, hargs, hdatum]
        refine .some ⟨rfl, ?_⟩
        cases (m.choose op (if cond = .absent then none else some (m.read τ cond))
          (args.map (m.read τ)) succ).bind (succ[·]?) with
        | none => exact .none
        | some s => exact .some ⟨rfl, rfl, h⟩

theorem step_sameStep (hr : fn.Removable ins) (hc : fn.Consistent) (hw : fn.WellFormed)
    (m : Meaning D) {e f : Entering D} (h : e.AgreeOff ins f) :
    SameStep ins (m.step fn e) (m.step (fn.without ins) f) := by
  obtain ⟨hblock, horigin, hstore⟩ := h
  unfold Meaning.step
  rw [block?_without, ← hblock, ← horigin]
  cases hb : fn.block? e.block with
  | none => exact .none
  | some block =>
    simp only [Option.map_some]
    rw [(merges_without hw (mem_blocks hb)).2]
    refine hr.body_sameStep hc hw m e.block ?_ (hr.enter_agreeOff hw m hb hstore e.origin)
    intro x hx
    exact mem_code hb ((List.dropWhile_sublist _).subset hx)

theorem events_eq (hr : fn.Removable ins) (hc : fn.Consistent) (hw : fn.WellFormed)
    (m : Meaning D) (k : Nat) {e f : Entering D} (h : e.AgreeOff ins f) :
    m.events (fn.without ins) k f = m.events fn k e := by
  induction k generalizing e f with
  | zero => rfl
  | succ k ih =>
    have hstep := hr.step_sameStep hc hw m h
    unfold Meaning.events
    cases he : m.step fn e with
    | none =>
      rw [he] at hstep
      cases hf : m.step (fn.without ins) f with
      | none => rfl
      | some q =>
        rw [hf] at hstep
        cases hstep
    | some p =>
      rw [he] at hstep
      cases hf : m.step (fn.without ins) f with
      | none =>
        rw [hf] at hstep
        cases hstep
      | some q =>
        rw [hf] at hstep
        obtain ⟨event, next⟩ := p
        obtain ⟨event', next'⟩ := q
        cases hstep with
        | some hboth =>
          obtain ⟨hevent, hnext⟩ := hboth
          dsimp only at hevent hnext
          subst hevent
          cases hnext with
          | none => rfl
          | some hagree => exact congrArg (event :: ·) (ih hagree)

end Func.Removable

namespace Meaning
variable {fn rest : Func}

theorem run_of_thins (m : Meaning D) (ht : fn.Thins rest) (hc : fn.Consistent)
    (hw : fn.WellFormed) (k : Nat) (σ : Store D) : m.run rest k σ = m.run fn k σ := by
  induction ht with
  | refl fn => rfl
  | step hr _ ih =>
    refine (ih (hr.consistent hc) (hr.wellFormed hc hw)).trans ?_
    exact hr.events_eq hc hw m k ⟨rfl, rfl, fun _ _ => rfl⟩

/-- Whatever the options are and however the elimination ends, every run of the function makes the
same events before and after it. -/
theorem run_eliminate (m : Meaning D) (hc : fn.Consistent) (hv : fn.malformed? = none)
    (o : Options) (k : Nat) (σ : Store D) : m.run (fn.eliminate o).func k σ = m.run fn k σ :=
  m.run_of_thins (Func.thins_eliminate hc o) hc (Func.malformed?_eq_none_iff.mp hv) k σ

/-- Every operation takes one off its first operand, and a condition of zero picks the second
target. -/
def decrementing : Meaning Int :=
  ⟨fun _ data => data.headD 0 - 1, fun _ => 3, fun n => n, 0,
    fun _ cond _ _ => some (if cond = some 0 then 1 else 0)⟩

theorem run_eliminate_countdown :
    Func.countdown.Consistent ∧ Func.countdown.malformed? = none ∧
      (Func.countdown.eliminate ⟨1, true, false, none, .standard false⟩).func.alive 6 = false ∧
      (decrementing.run Func.countdown 9 fun _ => 0).length = 5 ∧
      decrementing.run (Func.countdown.eliminate ⟨1, true, false, none, .standard false⟩).func 9
          (fun _ => 0) =
        decrementing.run Func.countdown 9 fun _ => 0 :=
  ⟨Func.consistent_countdown, Func.malformed?_countdown, by decide, by decide,
    run_eliminate _ Func.consistent_countdown Func.malformed?_countdown _ _ _⟩

end Meaning
end DeadCode
