import DeadCode.Proofs.Elimination.Stages
import Mathlib.Algebra.BigOperators.Group.List.Basic
import Mathlib.Algebra.Order.BigOperators.Group.List

/-! # What an elimination accounts for

The counts of an elimination that converges are right: its rounds are the stages it ran through, and
the instructions it counts as removed are those the function has lost. Every round but the last
removes an instruction that is no terminator, so the number of rounds is at most one more than the
number of such instructions. A second elimination finds nothing.
-/
namespace DeadCode

theorem Round.total_eq_sum (count : Round → Nat) (rounds : List Round) :
    Round.total count rounds = (rounds.map count).sum := by
  have fold : ∀ start, rounds.foldl (fun sum round => sum + count round) start =
      start + (rounds.map count).sum := by
    induction rounds with
    | nil => simp
    | cons round rest ih =>
      intro start
      rw [List.foldl_cons, ih, List.map_cons, List.sum_cons]
      omega
  simpa [total] using fold 0

namespace Func
variable {fn : Func} {ins : List Int} {localOnly : Bool} {c : Course} {k : Nat}

theorem Removable.size_without (hr : fn.Removable ins) (hc : fn.Consistent) (hn : ins.Nodup) :
    (fn.without ins).size + ins.length = fn.size := by
  have hdups : ins.eraseDups.Perm ins :=
    (List.perm_ext_iff_of_nodup (nodup_eraseDups ins) hn).mpr fun i => List.mem_eraseDups
  rw [← hdups.length_eq]
  exact hr.size_add_eraseDups hc

theorem epoch_stage (fn : Func) (localOnly : Bool) (k : Nat) :
    (fn.stage localOnly k).epoch = fn.epoch + UInt64.ofNat k := by
  induction k with
  | zero => simp [stage_zero]
  | succ k ih =>
    rw [stage_succ_eq_without, UInt64.ofNat_add, ← UInt64.add_assoc, ← ih]
    rfl

theorem length_blocks_stage (fn : Func) (localOnly : Bool) (k : Nat) :
    (fn.stage localOnly k).blocks.length = fn.blocks.length := by
  induction k with
  | zero => rfl
  | succ k ih =>
    rw [stage_succ_eq_without, ← ih]
    exact List.length_map _

def taken (localOnly : Bool) (fn : Func) (k : Nat) : Nat :=
  ((List.range k).map fun j => ((fn.stage localOnly j).idle localOnly).length).sum

theorem WellFormed.length_blocks_le (hw : fn.WellFormed) : fn.blocks.length ≤ fn.code.length := by
  rw [code, List.length_flatMap]
  have hone : ∀ n ∈ fn.blocks.map (·.code.length), 1 ≤ n := by
    intro n hn
    obtain ⟨block, hblock, rfl⟩ := List.mem_map.mp hn
    obtain ⟨before, last, he, -⟩ := hw.ended block hblock
    simp [he]
  simpa using List.length_le_sum_of_one_le _ hone

namespace RunsTo

theorem size_stage (h : fn.RunsTo localOnly k c) (hc : fn.Consistent) {j : Nat} (hj : j ≤ k) :
    (fn.stage localOnly j).size + fn.taken localOnly j = fn.size := by
  induction j with
  | zero => rfl
  | succ j ih =>
    have hstage := (h.thins (j := j) (by omega)).consistent hc
    have hlost := (h.removable j (by omega)).size_without hstage (hstage.nodup_deadInstrs _ _)
    have hsum : fn.taken localOnly (j + 1) = fn.taken localOnly j + _ := List.sum_range_succ _ _
    rw [stage_succ_eq_without, hsum]
    have := ih (by omega)
    omega

theorem le_taken (h : fn.RunsTo localOnly k c) : k ≤ fn.taken localOnly k := by
  have hone : ∀ n ∈ (List.range k).map fun j => ((fn.stage localOnly j).idle localOnly).length,
      1 ≤ n := by
    intro n hn
    obtain ⟨j, hj, rfl⟩ := List.mem_map.mp hn
    exact List.length_pos_iff.mpr (h.busy j (List.mem_range.mp hj))
  simpa [taken] using List.length_le_sum_of_one_le _ hone

/-- Every stage before the last removes an instruction, and no terminator is ever removed. -/
theorem add_blocks_le (h : fn.RunsTo localOnly k c) (hc : fn.Consistent) (hw : fn.WellFormed) :
    k + fn.blocks.length ≤ fn.size := by
  have hthins := h.thins (Nat.le_refl k)
  have hblocks := (hthins.wellFormed hc hw).length_blocks_le
  rw [length_blocks_stage, ← (hthins.consistent hc).size_eq] at hblocks
  have hsize := h.size_stage hc (Nat.le_refl k)
  have htaken := h.le_taken
  omega

theorem removeAll_stage (h : fn.RunsTo localOnly k c) (hc : fn.Consistent) {j : Nat} (hj : j < k) :
    (fn.stage localOnly j).removeAll ((fn.stage localOnly j).idle localOnly) =
      .ok (fn.stage localOnly (j + 1)) := by
  rw [removeAll_eq_ok_iff ((h.thins hj.le).consistent hc), if_neg (h.busy j hj),
    stage_succ_eq_without]
  exact ⟨h.removable j hj, rfl⟩

end RunsTo

theorem idle_subset (fn : Func) : fn.idle false ⊆ fn.idle true := by
  refine List.map_subset _ fun x hx => ?_
  simp only [List.mem_filter, decide_eq_true_eq, Bool.false_eq_true, ↓reduceIte] at hx ⊢
  obtain ⟨hx, hk, hdead⟩ := hx
  refine ⟨hx, hk, fun hat => hdead ?_⟩
  unfold Liveness.liveAt at hat
  cases hfind : fn.liveness.find? x.id with
  | none => simp [hfind] at hat
  | some e =>
    simp only [hfind, decide_eq_true_eq] at hat
    exact Liveness.mem_support.mpr ⟨e, List.mem_of_find?_eq_some hfind, .inr hat⟩

theorem of_eliminate_converged {o : Options} (h : (fn.eliminate o).ending = .converged) :
    fn.malformed? = none ∧ fn.writeTrace o.trace ≠ none ∧ (fn.begun o).fault? = none := by
  unfold eliminate at h
  cases hm : fn.malformed? with
  | some m => simp [hm, reject] at h
  | none =>
    cases ht : fn.writeTrace o.trace with
    | none => simp [hm, ht, reject] at h
    | some sink =>
      refine ⟨rfl, by simp, ?_⟩
      cases hf : (fn.begun o).fault? with
      | none => rfl
      | some fault =>
        unfold begun at hf
        simp [hm, ht, hf] at h

theorem eliminate_of_idle_eq_nil {o : Options} (hv : fn.malformed? = none) (ht : o.trace = none)
    (hidle : fn.idle o.localDeadness = []) :
    (fn.eliminate o).ending = .converged ∧ (fn.eliminate o).result = ⟨1, 0, [0]⟩ ∧
      (fn.eliminate o).func = fn := by
  have hcourse : fn.begun o = ⟨[⟨[], fn.liveness.sweeps⟩], fn, none⟩ := by
    unfold idle at hidle
    simp [begun, course, hidle]
  obtain ⟨hfunc, hresult, hending⟩ :=
    eliminate_of_begun (o := o) hv (by simp [writeTrace, ht]) (by rw [hcourse])
  rw [hfunc, hresult, hending, hcourse]
  exact ⟨rfl, rfl, rfl⟩

/-- The books of an elimination that converged, compared with the stages of the function. -/
structure Accounted (fn : Func) (localOnly : Bool) (e : Elimination) : Prop where
  length_eq : e.result.rounds = e.result.perRound.length
  positive : ∃ front, e.result.perRound = front ++ [0] ∧ ∀ n ∈ front, 0 < n
  sum_eq : e.result.perRound.sum = e.result.removed
  size_eq : e.func.size + e.result.removed = fn.size
  epoch_eq : e.func.epoch = fn.epoch + UInt64.ofNat (e.result.rounds - 1)
  rounds_le : e.result.rounds + fn.blocks.length ≤ fn.size + 1
  func_eq : e.func = fn.stage localOnly (e.result.rounds - 1)
  perRound_eq : e.result.perRound = (List.range e.result.rounds).map fun k =>
    ((fn.stage localOnly k).idle localOnly).length
  removals : ∀ k, k + 1 < e.result.rounds →
    (fn.stage localOnly k).removeAll ((fn.stage localOnly k).idle localOnly) =
      .ok (fn.stage localOnly (k + 1))
  tally_eq : e.tally = ⟨1, e.result.rounds,
    ((List.range e.result.rounds).map fun k => (fn.stage localOnly k).liveness.sweeps).sum,
    e.result.removed⟩

theorem RunsTo.accounted (h : fn.RunsTo localOnly k c) (hc : fn.Consistent) (hw : fn.WellFormed)
    (hfault : c.fault? = none) {e : Elimination} (hfunc : e.func = c.func)
    (hresult : e.result = .ofRounds c.rounds) (htally : e.tally = .ofRounds c.rounds) :
    fn.Accounted localOnly e := by
  have hlast := h.fault?_iff.mp hfault
  have hrounds : e.result.rounds = k + 1 := by simp [hresult, Result.ofRounds, h.rounds_eq]
  have hper : e.result.perRound = (List.range (k + 1)).map fun j =>
      ((fn.stage localOnly j).idle localOnly).length := by
    simp [hresult, Result.ofRounds, h.rounds_eq, round]
  have hsum : e.result.perRound.sum = e.result.removed := by
    simp [hresult, Result.ofRounds, Round.total_eq_sum]
  have htaken : e.result.removed = fn.taken localOnly k := by
    rw [← hsum, hper, List.sum_range_succ, hlast]
    rfl
  have hblocks := h.add_blocks_le hc hw
  refine ⟨?_, ?_, hsum, ?_, ?_, ?_, ?_, ?_, ?_, ?_⟩
  · simp [hrounds, hper]
  · refine ⟨_, by rw [hper, List.range_succ, List.map_append, List.map_singleton, hlast]; rfl, ?_⟩
    intro n hn
    obtain ⟨j, hj, rfl⟩ := List.mem_map.mp hn
    exact List.length_pos_iff.mpr (h.busy j (List.mem_range.mp hj))
  · rw [hfunc, h.func_eq, htaken]
    exact h.size_stage hc (Nat.le_refl k)
  · rw [hfunc, h.func_eq, hrounds]
    exact epoch_stage fn localOnly k
  · omega
  · rw [hfunc, h.func_eq, hrounds]
    rfl
  · rw [hrounds, hper]
  · intro j hj
    exact h.removeAll_stage hc (by omega)
  · rw [htally, Tally.ofRounds, Round.total_eq_sum, hrounds, hresult, h.rounds_eq]
    simp [Result.ofRounds, round, Function.comp_def]

/-- The counts of an elimination that converges are right for both kinds of deadness, and a higher
bound on the rounds changes nothing. Eliminating once more, in the same way or with deadness in the
whole function, takes one round that finds nothing and leaves the function as it is. -/
theorem eliminate_accounted (hc : fn.Consistent) {o : Options}
    (hend : (fn.eliminate o).ending = .converged) :
    fn.Accounted o.localDeadness (fn.eliminate o) ∧
      (∀ bound, fn.code.length < bound →
        course o.localDeadness o.verifyRounds bound 1 fn = fn.begun o) ∧
      ∀ again : Options, again.trace = none →
        again.localDeadness = o.localDeadness ∨ again.localDeadness = false →
        ((fn.eliminate o).func.eliminate again).ending = .converged ∧
          ((fn.eliminate o).func.eliminate again).result = ⟨1, 0, [0]⟩ ∧
          ((fn.eliminate o).func.eliminate again).func = (fn.eliminate o).func := by
  obtain ⟨hv, ht, hfault⟩ := of_eliminate_converged hend
  have hw := malformed?_eq_none_iff.mp hv
  obtain ⟨k, hk⟩ := hw.exists_runsTo hc o.localDeadness o.verifyRounds 1 (Nat.lt_succ_self _)
  change fn.RunsTo o.localDeadness k (fn.begun o) at hk
  obtain ⟨hfunc, hresult, -⟩ := eliminate_of_begun hv ht hfault
  have htally : (fn.eliminate o).tally = .ofRounds (fn.begun o).rounds := by
    obtain ⟨sink, hs⟩ := Option.ne_none_iff_exists'.mp ht
    rw [eliminate_eq_of_begun hv hs]
  refine ⟨hk.accounted hc hw hfault hfunc hresult htally, ?_, ?_⟩
  · intro bound hbound
    exact hw.course_eq_of_lt hc _ _ 1 hbound (Nat.lt_succ_self _)
  · intro again htrace hmode
    rw [hfunc, hk.func_eq]
    have haccepted := ((hk.thins (Nat.le_refl k)).wellFormed hc hw).malformed?_eq_none
    apply eliminate_of_idle_eq_nil haccepted htrace
    have hlast := hk.fault?_iff.mp hfault
    rcases hmode with hmode | hmode
    · rw [hmode]
      exact hlast
    · rw [hmode]
      cases hl : o.localDeadness with
      | false => rwa [hl] at hlast
      | true =>
        rw [hl] at hlast
        exact List.subset_nil.mp (hlast ▸ idle_subset _)

theorem eliminate_countdown_accounted :
    countdown.Consistent ∧
      (countdown.eliminate ⟨1, true, true, some (.create 0 1), .standard false⟩).ending =
        .converged ∧
      (countdown.eliminate ⟨1, true, true, some (.create 0 1), .standard false⟩).result =
        ⟨3, 2, [1, 1, 0]⟩ ∧
      countdown.Accounted true
        (countdown.eliminate ⟨1, true, true, some (.create 0 1), .standard false⟩) ∧
      ((countdown.eliminate ⟨1, true, true, some (.create 0 1), .standard false⟩).func.eliminate
        ⟨2, false, false, none, .standard true⟩).result = ⟨1, 0, [0]⟩ := by
  have hend : (countdown.eliminate ⟨1, true, true, some (.create 0 1), .standard false⟩).ending =
      .converged := by decide
  obtain ⟨hbooks, -, hagain⟩ := eliminate_accounted consistent_countdown hend
  exact ⟨consistent_countdown, hend, by decide, hbooks,
    (hagain ⟨2, false, false, none, .standard true⟩ rfl (.inr rfl)).2.1⟩

end Func
end DeadCode
