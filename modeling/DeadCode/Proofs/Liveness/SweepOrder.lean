import DeadCode.Proofs.Liveness.Acyclic

/-! # The order of unrelated blocks

A visit writes the sets of its own block, and all it reads from elsewhere are the sets of the blocks
that this block leads to. So two blocks may be visited in either order if neither leads to the
other. Orders that have sinks first, and inside a component go by the ranks, differ in the places of
such blocks only: a sweep in one of them does exactly what a sweep in another does, and it takes the
same number of sweeps until nothing changes.
-/
namespace DeadCode

section
variable {α β : Type} {f : β → α → β}

theorem foldl_append_cons_of_comm {a : α} {front : List α}
    (hcomm : ∀ b ∈ front, ∀ s, f (f s b) a = f (f s a) b) (back : List α) (s : β) :
    (front ++ a :: back).foldl f s = (a :: (front ++ back)).foldl f s := by
  induction front generalizing s with
  | nil => rfl
  | cons b front ih =>
    obtain ⟨hb, hfront⟩ := List.forall_mem_cons.mp hcomm
    have hmoved := ih hfront (f s b)
    simp only [List.cons_append, List.foldl_cons] at hmoved ⊢
    rw [hmoved, hb]

/-- Two arrangements of the same steps have the same result if the steps whose order differs
commute. -/
theorem foldl_eq_of_pairwise {R : α → α → Prop}
    (hcomm : ∀ a b, R a b → R b a → ∀ s, f (f s a) b = f (f s b) a) {l m : List α}
    (hperm : l.Perm m) (hl : l.Pairwise R) (hm : m.Pairwise R) (s : β) :
    l.foldl f s = m.foldl f s := by
  induction l generalizing m s with
  | nil => rw [hperm.nil_eq]
  | cons a l ih =>
    obtain ⟨hal, hl⟩ := List.pairwise_cons.mp hl
    obtain ⟨front, back, rfl⟩ := List.append_of_mem (hperm.subset List.mem_cons_self)
    have hfront : ∀ b ∈ front, ∀ s, f (f s b) a = f (f s a) b := by
      intro b hb
      have hba : R b a := (List.pairwise_append.mp hm).2.2 b hb a List.mem_cons_self
      rcases List.mem_cons.mp (hperm.symm.subset (List.mem_append_left _ hb)) with rfl | hbl
      · exact fun _ => rfl
      · exact hcomm b a hba (hal b hbl)
    rw [foldl_append_cons_of_comm hfront]
    exact ih (hperm.trans List.perm_middle).cons_inv hl
      (hm.sublist ((List.sublist_cons_self a back).append_left front)) (f s a)

end

theorem pass_congr {owner : Nat} {exit exit' : List Int → ValueSet} {code : List Instr}
    (h : ∀ x ∈ code, x.kind = .terminator → exit x.node.targets = exit' x.node.targets) :
    pass owner exit code = pass owner exit' code := by
  induction code with
  | nil => rfl
  | cons x rest ih =>
    obtain ⟨hx, hrest⟩ := List.forall_mem_cons.mp h
    have hout : (if x.kind = .terminator then exit x.node.targets
        else frontIn (pass owner exit' rest)) =
        if x.kind = .terminator then exit' x.node.targets else frontIn (pass owner exit' rest) := by
      split
      · next hk => exact hx hk
      · rfl
    simp only [pass, ih hrest, hout]

namespace Func
variable {fn : Func} {facts other : Facts} {order order' : List Int} {a b : Int}

theorem exitOut_congr {targets : List Int}
    (h : ∀ s ∈ targets, fn.entryIn facts s = fn.entryIn other s) :
    fn.exitOut facts b targets = fn.exitOut other b targets := by
  ext v
  rw [mem_exitOut, mem_exitOut]
  refine exists_congr fun s => and_congr_right fun hs => ?_
  rw [h s hs]

theorem entryIn_visit_of_ne {s : Int} (hne : s ≠ b) :
    fn.entryIn (fn.visit facts b) s = fn.entryIn facts s := by
  ext v
  rw [mem_entryIn, mem_entryIn]
  refine exists_congr fun block => and_congr_right fun _ => ?_
  rw [Facts.LiveBefore, at?_visit_of_ne hne]
  rfl

theorem visit_eq {block : BasicBlock} (ha : fn.block? a = some block) :
    fn.visit facts a = modifyNth facts (fun _ => pass fn.id (fn.exitOut facts a) block.code) a := by
  simp only [visit, ha]

/-- A visit does not depend on the sets of a block that its own block does not lead to. -/
theorem WellFormed.visit_visit (hw : fn.WellFormed) {block : BasicBlock}
    (ha : fn.block? a = some block) (hab : b ∉ fn.next a) :
    fn.visit (fn.visit facts b) a =
      modifyNth (fn.visit facts b) (fun _ => pass fn.id (fn.exitOut facts a) block.code) a := by
  have hpass : pass fn.id (fn.exitOut (fn.visit facts b) a) block.code =
      pass fn.id (fn.exitOut facts a) block.code := by
    apply pass_congr
    intro x hx hk
    apply exitOut_congr
    intro s hs
    apply entryIn_visit_of_ne
    rintro rfl
    have hsucc : s ∈ block.succ := (hw.succ_eq_targets (mem_blocks ha) hx hk).2 ▸ hs
    refine hab (List.mem_filter.mpr ⟨?_, hw.targets block (mem_blocks ha) s hsucc⟩)
    simpa only [succ, ha] using hsucc
  rw [visit_eq ha, hpass]

theorem WellFormed.visit_comm (hw : fn.WellFormed) (hne : a ≠ b) (hab : b ∉ fn.next a)
    (hba : a ∉ fn.next b) (facts : Facts) :
    fn.visit (fn.visit facts a) b = fn.visit (fn.visit facts b) a := by
  cases ha : fn.block? a with
  | none => rw [visit_of_block?_eq_none ha, visit_of_block?_eq_none ha]
  | some block =>
    cases hb : fn.block? b with
    | none => rw [visit_of_block?_eq_none hb, visit_of_block?_eq_none hb]
    | some other =>
      rw [hw.visit_visit hb hba, hw.visit_visit ha hab, visit_eq ha, visit_eq hb,
        modifyNth_comm _ _ _ hne]

/-- Lists every block once, behind the blocks that it reaches and is not reached from, and blocks
that reach one another by their ranks. -/
structure Ranked (fn : Func) (order : List Int) : Prop extends fn.SinksFirst order where
  ranked : order.Pairwise fun a b =>
    Graph.Reaches fn.next a b → Graph.Reaches fn.next b a → fn.rank a < fn.rank b

theorem ranked_visitOrder (fn : Func) : fn.Ranked fn.visitOrder :=
  ⟨sinksFirst_visitOrder fn, pairwise_rank_visitOrder fn⟩

instance (fn : Func) (order : List Int) : Decidable (fn.Ranked order) :=
  decidable_of_iff (order.Perm fn.blockIds ∧ order.Pairwise fun a b =>
      b ∈ Graph.postOrder fn.next fn.blocks.length a →
        a ∈ Graph.postOrder fn.next fn.blocks.length b ∧ fn.rank a < fn.rank b) <| by
    have hmem : ∀ {a}, order.Perm fn.blockIds → a ∈ order → a ∈ fn.blockIds :=
      fun hperm ha => hperm.mem_iff.mp ha
    constructor
    · rintro ⟨hperm, hpair⟩
      refine ⟨⟨hperm, hpair.imp_of_mem ?_⟩, hpair.imp_of_mem ?_⟩
      · intro a b ha hb hab hreach
        rw [← mem_postOrder_next (hmem hperm ha)] at hreach
        exact (mem_postOrder_next (hmem hperm hb)).mp (hab hreach).1
      · intro a b ha _ hab hreach _
        rw [← mem_postOrder_next (hmem hperm ha)] at hreach
        exact (hab hreach).2
    · intro h
      refine ⟨h.perm, (h.back.and h.ranked).imp_of_mem ?_⟩
      intro a b ha hb ⟨hback, hlt⟩ hab
      rw [mem_postOrder_next (hmem h.perm ha)] at hab
      exact ⟨(mem_postOrder_next (hmem h.perm hb)).mpr (hback hab), hlt hab (hback hab)⟩

theorem WellFormed.sweep_eq_of_ranked (hw : fn.WellFormed) (ho : fn.Ranked order)
    (ho' : fn.Ranked order') (facts : Facts) : fn.sweep order facts = fn.sweep order' facts := by
  refine foldl_eq_of_pairwise ?_ (ho.perm.trans ho'.perm.symm) (ho.back.and ho.ranked)
    (ho'.back.and ho'.ranked) facts
  rintro a b ⟨hab, hlt⟩ ⟨hba, hgt⟩
  have hnot : ¬ Graph.Reaches fn.next a b := by
    intro hreach
    have := hlt hreach (hab hreach)
    have := hgt (hab hreach) hreach
    omega
  have hnot' : ¬ Graph.Reaches fn.next b a := fun hreach => hnot (hba hreach)
  apply hw.visit_comm
  · rintro rfl
    exact hnot (.refl a)
  · exact fun hmem => hnot (.step hmem (.refl b))
  · exact fun hmem => hnot' (.step hmem (.refl a))

theorem settle_congr (h : ∀ facts, fn.sweep order facts = fn.sweep order' facts) (fuel : Nat)
    (facts : Facts) : fn.settle order fuel facts = fn.settle order' fuel facts := by
  induction fuel generalizing facts with
  | zero => rfl
  | succ fuel ih => simp only [settle, h, ih]

/-- The order of unrelated components does not matter. Two orders that list every block behind those
it reaches and is not reached from, and blocks that reach one another by their ranks, give the same
sets after every sweep, and nothing changes any more after the same number of sweeps. The order of
the analysis is such an order, and the number of sweeps that it reports is that of the first sweep
that changes nothing. -/
theorem analyze_sweeps_eq (hv : fn.malformed? = none) (ho : fn.Ranked order)
    (ho' : fn.Ranked order') :
    (∀ k, (fn.sweep order)^[k] fn.noFacts = (fn.sweep order')^[k] fn.noFacts) ∧
      fn.Ranked fn.visitOrder ∧
      ∃ lv, fn.analyze = .ok lv ∧ (∃ i, lv.sweeps = i + 1 ∧ fn.FirstFixed order fn.noFacts i) ∧
        ∀ fuel, lv.sweeps ≤ fuel →
          fn.settle order fuel fn.noFacts = (fn.settled fn.visitOrder, lv.sweeps) ∧
            fn.settle order' fuel fn.noFacts = (fn.settled fn.visitOrder, lv.sweeps) := by
  have hw := malformed?_eq_none_iff.mp hv
  obtain ⟨i, -, hfirst, hfuel, hbound⟩ :=
    exists_settle_eq_settled (sweep_iterate_eq fn fn.visitOrder)
  have hsweeps : fn.liveness.sweeps = i + 1 := by
    rw [liveness, hbound]
  have hsettle : ∀ {order}, fn.Ranked order → ∀ fuel, i < fuel →
      fn.settle order fuel fn.noFacts = (fn.settled fn.visitOrder, i + 1) := by
    intro order ho fuel hle
    rw [← hfuel fuel hle]
    exact settle_congr (hw.sweep_eq_of_ranked ho (ranked_visitOrder fn)) fuel _
  refine ⟨?_, ranked_visitOrder fn, fn.liveness, analyze_eq hv, ⟨i, hsweeps, ?_⟩, ?_⟩
  · have hsame : fn.sweep order = fn.sweep order' := funext (hw.sweep_eq_of_ranked ho ho')
    intro k
    rw [hsame]
  · have hsame : fn.sweep order = fn.sweep fn.visitOrder :=
      funext (hw.sweep_eq_of_ranked ho (ranked_visitOrder fn))
    rwa [FirstFixed, hsame]
  · intro fuel hle
    rw [hsweeps] at hle ⊢
    exact ⟨hsettle ho fuel hle, hsettle ho' fuel hle⟩

def loops : Func := changeAll ⟨0, "loops", 1, 0, 0, [], []⟩ [
  .addBlock "entry", .addBlock "self", .addBlock "head", .addBlock "exit", .addBlock "body",
  .addBlock "apart",
  .addTerminator 0 "cond_br" (.arg 0 0) [] [1, 2],
  .addPlain 1 "neg" [.instr 0 2],
  .addPlain 1 "one" [],
  .addTerminator 1 "cond_br" (.instr 0 1) [] [1, 3],
  .addPlain 2 "neg" [.instr 0 6],
  .addTerminator 2 "br" .absent [] [4],
  .addPlain 4 "neg" [.arg 0 0],
  .addTerminator 4 "cond_br" (.instr 0 4) [] [2, 3],
  .addTerminator 3 "ret" .absent [.instr 0 2] [],
  .addPlain 5 "neg" [.instr 0 10],
  .addPlain 5 "one" [],
  .addTerminator 5 "br" .absent [] [5]]

theorem analyze_loops_sweeps :
    loops.malformed? = none ∧ loops.Ranked [3, 1, 4, 2, 0, 5] ∧ loops.Ranked [5, 3, 4, 2, 1, 0] ∧
      (∀ k, (loops.sweep [3, 1, 4, 2, 0, 5])^[k] loops.noFacts =
        (loops.sweep [5, 3, 4, 2, 1, 0])^[k] loops.noFacts) ∧
      loops.FirstFixed [3, 1, 4, 2, 0, 5] loops.noFacts 2 ∧
      ∃ lv, loops.analyze = .ok lv ∧ lv.sweeps = 3 ∧
        (loops.settle [3, 1, 4, 2, 0, 5] 3 loops.noFacts).2 = 3 ∧
        (loops.settle [5, 3, 4, 2, 1, 0] 3 loops.noFacts).2 = 3 := by
  have hv : loops.malformed? = none := by decide
  have ho : loops.Ranked [3, 1, 4, 2, 0, 5] := by decide
  have ho' : loops.Ranked [5, 3, 4, 2, 1, 0] := by decide
  obtain ⟨hsame, -, lv, hlv, ⟨i, hi, hfixed⟩, hcount⟩ := analyze_sweeps_eq hv ho ho'
  have hsweeps : lv.sweeps = 3 := by
    have hself : loops.analyze = .ok loops.liveness := analyze_eq hv
    obtain rfl := Except.ok.inj (hlv.symm.trans hself)
    decide
  obtain ⟨hfirst, hsecond⟩ := hcount 3 (by omega)
  obtain rfl : i = 2 := by omega
  exact ⟨hv, ho, ho', hsame, hfixed, lv, hlv, hsweeps, by rw [hfirst, hsweeps],
    by rw [hsecond, hsweeps]⟩

end Func
end DeadCode
