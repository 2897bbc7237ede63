import DeadCode.Proofs.Liveness.Unused

/-! # Three views of the edges between blocks

The targets of a block, the predecessors of a block and the table of all predecessors are read off
the same terminators in three ways. The edges of a merge, which the verifier compares with the
predecessors, are those that the analysis follows along the targets: what a merge takes from a block
is live where that block ends.
-/
namespace DeadCode
namespace Func
variable {fn : Func}

theorem pairwise_pred (fn : Func) (b : Int) : (fn.pred b).Pairwise (· < ·) :=
  fn.pairwise_blockIds.filter _

theorem WellFormed.edges_perm_pred (hw : fn.WellFormed) {b : Int} {block : BasicBlock}
    (hb : fn.block? b = some block) {x : Instr} (hx : x ∈ block.code) (hk : x.kind = .merge) :
    (x.node.edges.map (·.pred)).Perm (fn.pred b) := by
  obtain ⟨hnodup, hmem⟩ := hw.edges b block hb x hx hk
  refine (List.perm_ext_iff_of_nodup hnodup ((pairwise_pred fn b).imp Int.ne_of_lt)).mpr fun p => ?_
  rw [hmem p, mem_pred]

theorem WellFormed.mem_after_of_edge (hw : fn.WellFormed) (hc : fn.Consistent) {x : Instr}
    (hx : x ∈ fn.code) {e : Edge} (he : e ∈ x.node.edges) (hv : e.value.tracked = true) :
    ∃ block t entry, fn.block? e.pred = some block ∧ block.terminator? = some t ∧
      fn.liveness.of fn t.id = .ok entry ∧ e.value ∈ entry.sides.after := by
  obtain ⟨block, front, last, hb, hcode, hlast, -, hread⟩ := hw.exists_edgeReads hx he
  have hat : fn.at? ⟨e.pred, front.length⟩ = some last := by simp [at?, hb, hcode]
  have hterm : block.terminator? = some last := by
    simp [BasicBlock.terminator?, hcode, Option.filter_some, hlast]
  obtain ⟨s, hs, hfind⟩ := hc.find?_liveness hat
  refine ⟨block, last, _, hb, hterm, of_liveness hfind, ?_⟩
  have hlive := (liveAfter_settled_iff (blockIds_subset_visitOrder fn)).mpr
    ⟨hv, (.inr hread : fn.NeedsAfter e.value ⟨e.pred, front.length⟩)⟩
  simpa [Facts.LiveAfter, hs] using hlive

/-- Targets, predecessors and the table of predecessors agree in every function. A target has a row
in the table if and only if some block leads to it, whether it is a block or not. If the verifier
accepts the function, the edges of every merge are the predecessors of its block, in some order, and
the followed values that they take are live at the ends of these blocks. -/
theorem flow_views_agree (fn : Func) :
    (∀ b, fn.hasBlock b → (fn.pred b).Pairwise (· < ·) ∧
      (∀ p, p ∈ fn.pred b ↔ p ∈ fn.blockIds ∧ b ∈ fn.succ p) ∧ rowOf fn.predTable b = fn.pred b) ∧
    (fn.predTable.map (·.1)).Pairwise (· < ·) ∧
    (∀ s, s ∈ fn.predTable.map (·.1) ↔ ∃ p ∈ fn.blockIds, s ∈ fn.succ p) ∧
    (fn.malformed? = none → ∀ b block, fn.block? b = some block → ∀ x ∈ block.code,
      x.kind = .merge → (x.node.edges.map (·.pred)).Perm (fn.pred b)) ∧
    (fn.malformed? = none → fn.Consistent → ∃ lv, fn.analyze = .ok lv ∧
      ∀ x ∈ fn.code, ∀ e ∈ x.node.edges, e.value.tracked = true →
        ∃ block t entry, fn.block? e.pred = some block ∧ block.terminator? = some t ∧
          lv.of fn t.id = .ok entry ∧ e.value ∈ entry.sides.after) := by
  refine ⟨?_, (records_predTable fn).keyed, fun s => mem_keys_predTable, ?_, ?_⟩
  · intro b _
    refine ⟨pairwise_pred fn b, fun p => ?_, rowOf_predTable fn b⟩
    rw [mem_pred, mem_blockIds]
  · intro hv b block hb x hx hk
    exact (malformed?_eq_none_iff.mp hv).edges_perm_pred hb hx hk
  · intro hv hc
    refine ⟨fn.liveness, analyze_eq hv, fun x hx e he htracked => ?_⟩
    exact (malformed?_eq_none_iff.mp hv).mem_after_of_edge hc hx he htracked

/-- A block that names another one twice, and a loop that names itself twice and merges a value of its
own with one from outside. -/
def twisted : Func := changeAll ⟨0, "twisted", 1, 0, 0, [], []⟩ [
  .addBlock "entry", .addBlock "loop", .addBlock "exit",
  .addTerminator 0 "cond_br" (.arg 0 0) [] [1, 1],
  .addMerge 1 [⟨0, .arg 0 0⟩],
  .addPlain 1 "neg" [.instr 0 1],
  .addEdge (.instr 0 1) ⟨1, .instr 0 2⟩,
  .addTerminator 1 "switch" (.instr 0 1) [] [1, 2, 1],
  .addTerminator 2 "ret" .absent [] []]

theorem flow_views_twisted_agree :
    twisted.malformed? = none ∧ twisted.Consistent ∧ twisted.hasBlock 1 ∧
      rowOf twisted.predTable 1 = [0, 1] ∧ ([0, 1] : List Int).Perm (twisted.pred 1) ∧
      ∃ lv block t entry, twisted.analyze = .ok lv ∧ twisted.block? 1 = some block ∧
        block.terminator? = some t ∧ lv.of twisted t.id = .ok entry ∧
        .instr 0 2 ∈ entry.sides.after := by
  have hv : twisted.malformed? = none := by decide
  have hstart : create 0 "twisted" 1 = .ok ⟨0, "twisted", 1, 0, 0, [], []⟩ := rfl
  have hc : twisted.Consistent := (consistent_create hstart).changeAll _
  have hblock : twisted.hasBlock 1 := by decide
  obtain ⟨hviews, -, -, hedges, hlive⟩ := flow_views_agree twisted
  have hpred : twisted.pred 1 = [0, 1] := by decide
  have hrow := (hviews 1 hblock).2.2
  let phi : Instr := ⟨1, .merge [⟨0, .arg 0 0⟩, ⟨1, .instr 0 2⟩]⟩
  have hperm := hedges hv 1 _ rfl phi (by decide) rfl
  obtain ⟨lv, hlv, hafter⟩ := hlive hv hc
  obtain ⟨block, t, entry, hb, ht, hentry, hmem⟩ :=
    hafter phi (by decide) ⟨1, .instr 0 2⟩ (by decide) rfl
  exact ⟨hv, hc, hblock, hrow.trans hpred, hperm, lv, block, t, entry, hlv, hb, ht, hentry, hmem⟩

end Func
end DeadCode
