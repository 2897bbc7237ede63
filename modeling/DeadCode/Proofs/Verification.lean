import DeadCode.Proofs.Arena
import DeadCode.Proofs.PredTable
import DeadCode.Func.Verify
import Mathlib.Data.List.Chain

/-! # The verifier accepts exactly the well-formed functions

Each check of the verifier is matched with the rule it looks for: first the checks of single values,
edges and instructions, then a run through the code of a block, which remembers the kind of the
instruction before, then the whole function. The edges of a merge are tested against a row of the
table of predecessors and must cover the list of them; the rules name only the list, since the two
are the same.
-/
namespace DeadCode

theorem Node.kind_of_mem_edges {node : Node} {e : Edge} (he : e ∈ node.edges) :
    node.kind = .merge := by
  cases node with
  | plain op args => simp [Node.edges] at he
  | merge edges => rfl
  | term op cond args succ => simp [Node.edges] at he

namespace BasicBlock

theorem merges_append_body (block : BasicBlock) : block.merges ++ block.body = block.code :=
  List.takeWhile_append_dropWhile

theorem kind_of_mem_merges {block : BasicBlock} {x : Instr} (hx : x ∈ block.merges) :
    x.kind = .merge := by
  simpa using List.all_eq_true.mp List.all_takeWhile x hx

theorem mem_code_of_mem_merges {block : BasicBlock} {x : Instr} (hx : x ∈ block.merges) :
    x ∈ block.code := (List.takeWhile_sublist _).subset hx

end BasicBlock

namespace Func
variable {fn : Func}

theorem valueFault?_eq_none_iff {v : Value} : fn.valueFault? v = none ↔ fn.Readable v := by
  cases v with
  | absent => simp [valueFault?, Readable]
  | const owner n => simp [valueFault?, Readable]
  | arg owner i =>
    simp only [valueFault?, Readable]
    by_cases ho : owner = fn.id
    · simp [ho]
    · simp [ho]
  | instr owner i =>
    simp only [valueFault?, Readable]
    by_cases ho : owner = fn.id
    · cases hs : fn.slot i with
      | error m =>
        simp only [ho, ne_eq, not_true_eq_false, ↓reduceIte, reduceCtorEq, true_and, false_iff]
        rintro ⟨s, hn, ha, -⟩
        rw [slot_eq_ok_iff.mpr ⟨hn, ha⟩] at hs
        cases hs
      | ok s =>
        obtain ⟨hn, ha⟩ := slot_eq_ok_iff.mp hs
        simp [ho, hn, ha]
    · simp [ho]

theorem edgeFault?_eq_none_iff {preds seen : List Int} {edges : List Edge} :
    fn.edgeFault? preds seen edges = none ↔
      (edges.map (·.pred)).Nodup ∧
        ∀ e ∈ edges, e.pred ∈ preds ∧ e.pred ∉ seen ∧ fn.Readable e.value := by
  induction edges generalizing seen with
  | nil => simp [edgeFault?]
  | cons e rest ih =>
    rw [edgeFault?]
    by_cases hp : e.pred ∈ preds
    · by_cases hs : e.pred ∈ seen
      · simp [hp, hs]
      · cases hv : fn.valueFault? e.value with
        | some fault =>
          have hr : ¬ fn.Readable e.value := by
            rw [← valueFault?_eq_none_iff, hv]
            simp
          simp [hp, hs, hr]
        | none =>
          have hr := valueFault?_eq_none_iff.mp hv
          simp only [hp, hs, not_true_eq_false, ↓reduceIte, ih, List.map_cons, List.nodup_cons,
            List.mem_cons, not_or, List.mem_map, forall_eq_or_imp, hr, not_false_eq_true, and_self,
            true_and]
          constructor
          · rintro ⟨hn, hall⟩
            refine ⟨⟨?_, hn⟩, fun d hd => ⟨(hall d hd).1, (hall d hd).2.1.2, (hall d hd).2.2⟩⟩
            rintro ⟨d, hd, he⟩
            exact (hall d hd).2.1.1 he
          · rintro ⟨⟨hne, hn⟩, hall⟩
            refine ⟨hn, fun d hd => ⟨(hall d hd).1, ⟨?_, (hall d hd).2.1⟩, (hall d hd).2.2⟩⟩
            intro he
            exact hne ⟨d, hd, he⟩
    · simp [hp]

def Covers (edges : List Edge) (preds : List Int) : Prop :=
  (edges.map (·.pred)).Nodup ∧ ∀ p, p ∈ edges.map (·.pred) ↔ p ∈ preds

theorem mergeFault?_eq_none_iff {b : Int} {edges : List Edge} :
    fn.mergeFault? b (fn.pred b) edges = none ↔
      Covers edges (fn.pred b) ∧ ∀ e ∈ edges, fn.Readable e.value := by
  unfold mergeFault?
  cases he : fn.edgeFault? (fn.pred b) [] edges with
  | some fault =>
    have hn : ¬ _ := fun h => Option.some_ne_none fault (he.symm.trans (edgeFault?_eq_none_iff.mpr h))
    simp only [reduceCtorEq, false_iff]
    rintro ⟨⟨hnodup, hmem⟩, hr⟩
    refine hn ⟨hnodup, fun e hin => ⟨?_, List.not_mem_nil, hr e hin⟩⟩
    exact (hmem e.pred).mp (List.mem_map_of_mem hin)
  | none =>
    obtain ⟨hnodup, hall⟩ := edgeFault?_eq_none_iff.mp he
    simp only [Option.map_eq_none_iff, List.find?_eq_none, decide_eq_true_eq, not_not]
    constructor
    · intro hmiss
      refine ⟨⟨hnodup, fun p => ⟨?_, hmiss p⟩⟩, fun e hin => (hall e hin).2.2⟩
      intro hp
      obtain ⟨e, hin, rfl⟩ := List.mem_map.mp hp
      exact (hall e hin).1
    · rintro ⟨⟨-, hmem⟩, -⟩ p hp
      exact (hmem p).mpr hp

/-- The rules for an instruction that do not depend on what stands around it. -/
def SoundAt (fn : Func) (preds : List Int) (x : Instr) : Prop :=
  (x.kind = .merge → Covers x.node.edges preds) ∧ ∀ v ∈ x.node.uses, fn.Readable v

/-- The order of kinds in a stretch of code that stands behind an instruction of kind `before`. -/
def Ordered : Option Kind → List Instr → Prop
  | _, [] => True
  | before, x :: rest =>
    (x.kind = .merge → before = none ∨ before = some .merge) ∧
      (x.kind = .terminator ↔ rest = []) ∧ Ordered (some x.kind) rest

theorem instrFault?_eq_none_iff {b : Int} {before : Option Kind} {last : Bool} {x : Instr} :
    fn.instrFault? b (fn.pred b) before last x = none ↔
      (x.kind = .merge → before = none ∨ before = some .merge) ∧
        (x.kind = .terminator ↔ last = true) ∧ fn.SoundAt (fn.pred b) x := by
  obtain ⟨id, node⟩ := x
  cases node with
  | plain op args =>
    simp only [instrFault?, SoundAt, Instr.kind, Node.kind, Node.uses, Node.operands]
    cases last with
    | false => simp [valueFault?_eq_none_iff]
    | true => simp
  | merge edges =>
    simp only [instrFault?, SoundAt, Instr.kind, Node.kind, Node.uses, Node.edges]
    cases last with
    | false =>
      by_cases hb : before = none ∨ before = some .merge
      · simp [hb, mergeFault?_eq_none_iff]
      · simp [hb]
    | true => simp
  | term op cond args succ =>
    simp only [instrFault?, SoundAt, Instr.kind, Node.kind, Node.uses]
    cases last with
    | false => simp
    | true => simp [valueFault?_eq_none_iff]

theorem codeFault?_eq_none_iff {b : Int} {index : Nat} {before : Option Kind}
    {code : List Instr} : fn.codeFault? b (fn.pred b) index before code = none ↔
      Ordered before code ∧ ∀ x ∈ code, fn.SoundAt (fn.pred b) x := by
  induction code generalizing index before with
  | nil => simp [codeFault?, Ordered]
  | cons x rest ih =>
    rw [codeFault?]
    cases hf : fn.instrFault? b (fn.pred b) before rest.isEmpty x with
    | some fault =>
      have hn : ¬ _ := fun h => Option.some_ne_none fault (hf.symm.trans (instrFault?_eq_none_iff.mpr h))
      simp only [reduceCtorEq, false_iff, Ordered, List.mem_cons, forall_eq_or_imp]
      rintro ⟨⟨hm, ht, -⟩, hs, -⟩
      exact hn ⟨hm, ht.trans List.isEmpty_iff.symm, hs⟩
    | none =>
      obtain ⟨hm, ht, hs⟩ := instrFault?_eq_none_iff.mp hf
      simp only [ih, Ordered, List.mem_cons, forall_eq_or_imp]
      constructor
      · rintro ⟨ho, hall⟩
        exact ⟨⟨hm, ht.trans List.isEmpty_iff, ho⟩, hs, hall⟩
      · rintro ⟨⟨-, -, ho⟩, -, hall⟩
        exact ⟨ho, hall⟩

theorem Ordered.merge_of_next {before : Option Kind} {pre post : List Instr} {x y : Instr}
    (h : Ordered before (pre ++ x :: y :: post)) (hy : y.kind = .merge) : x.kind = .merge := by
  induction pre generalizing before with
  | nil =>
    obtain ⟨-, -, hnext, -⟩ := h
    simpa using hnext hy
  | cons z pre ih => exact ih h.2.2

theorem Ordered.eq_nil_of_terminator {before : Option Kind} {pre post : List Instr} {x : Instr}
    (h : Ordered before (pre ++ x :: post)) (hx : x.kind = .terminator) : post = [] := by
  induction pre generalizing before with
  | nil => exact h.2.1.mp hx
  | cons z pre ih => exact ih h.2.2

theorem ordered_of_splits {before : Option Kind} {code : List Instr}
    (hfirst : ∀ x rest, code = x :: rest → x.kind = .merge → before = none ∨ before = some .merge)
    (hmerge : ∀ pre x y post, code = pre ++ x :: y :: post → y.kind = .merge → x.kind = .merge)
    (hlast : ∀ pre x post, code = pre ++ x :: post → (x.kind = .terminator ↔ post = [])) :
    Ordered before code := by
  induction code generalizing before with
  | nil => trivial
  | cons x rest ih =>
    refine ⟨hfirst x rest rfl, hlast [] x rest rfl, ih ?_ ?_ ?_⟩
    · rintro y post rfl hy
      exact .inr (congrArg some (hmerge [] x y post rfl hy))
    · rintro pre y z post rfl
      exact hmerge (x :: pre) y z post rfl
    · rintro pre y post rfl
      exact hlast (x :: pre) y post rfl

theorem terminator?_ne_none_iff {block : BasicBlock} :
    block.terminator? ≠ none ↔
      ∃ before last, block.code = before ++ [last] ∧ last.kind = .terminator := by
  unfold BasicBlock.terminator?
  rcases List.eq_nil_or_concat block.code with he | ⟨before, last, he⟩
  · simp [he]
  · simp only [he, List.concat_eq_append, List.getLast?_append, List.getLast?_singleton,
      Option.some_or, Option.filter_some, decide_eq_true_eq, ne_eq]
    by_cases hk : last.kind = .terminator
    · simp only [hk, ↓reduceIte, reduceCtorEq, not_false_eq_true, true_iff]
      exact ⟨before, last, rfl, hk⟩
    · simp only [hk, ↓reduceIte, not_true_eq_false, false_iff]
      rintro ⟨pre, x, he', hx⟩
      obtain ⟨-, rfl⟩ := List.append_singleton_inj.mp he'
      exact hk hx

theorem blockFault?_eq_none_iff {b : Int} {block : BasicBlock} (hb : fn.block? b = some block) :
    fn.blockFault? fn.predTable b = none ↔ block.terminator? ≠ none ∧ Ordered none block.code ∧
      ∀ x ∈ block.code, fn.SoundAt (fn.pred b) x := by
  unfold blockFault?
  simp only [hb, rowOf_predTable]
  by_cases ht : block.terminator? = none
  · simp [ht]
  · simp [ht, codeFault?_eq_none_iff]

theorem targetFault?_eq_none_iff {b : Int} {block : BasicBlock} (hb : fn.block? b = some block) :
    fn.targetFault? b = none ↔ ∀ s ∈ block.succ, fn.hasBlock s := by
  simp [targetFault?, hb]

theorem findSome?_blockIds_eq_none_iff {β : Type} {f : Int → Option β} :
    fn.blockIds.findSome? f = none ↔ ∀ b block, fn.block? b = some block → f b = none := by
  rw [List.findSome?_eq_none_iff]
  constructor
  · intro h b block hb
    exact h b (mem_blockIds_of_block? hb)
  · intro h b hb
    obtain ⟨block, hb⟩ := Option.isSome_iff_exists.mp (hasBlock_iff.mp (mem_blockIds.mp hb))
    exact h b block hb

/-- The verifier accepts a function if and only if it has a block, all targets are blocks, and the
code of every block is in order and sound. -/
theorem malformed?_eq_none_iff_rules : fn.malformed? = none ↔ fn.blocks ≠ [] ∧
    (∀ b block, fn.block? b = some block → ∀ s ∈ block.succ, fn.hasBlock s) ∧
    ∀ b block, fn.block? b = some block → block.terminator? ≠ none ∧ Ordered none block.code ∧
      ∀ x ∈ block.code, fn.SoundAt (fn.pred b) x := by
  have htarget : fn.blockIds.findSome? fn.targetFault? = none ↔
      ∀ b block, fn.block? b = some block → ∀ s ∈ block.succ, fn.hasBlock s := by
    rw [findSome?_blockIds_eq_none_iff]
    exact forall₃_congr fun b block hb => targetFault?_eq_none_iff hb
  have hrules : fn.blockIds.findSome? (fn.blockFault? fn.predTable) = none ↔
      ∀ b block, fn.block? b = some block → block.terminator? ≠ none ∧
        Ordered none block.code ∧ ∀ x ∈ block.code, fn.SoundAt (fn.pred b) x := by
    rw [findSome?_blockIds_eq_none_iff]
    exact forall₃_congr fun b block hb => blockFault?_eq_none_iff hb
  unfold malformed?
  by_cases he : fn.blocks = []
  · simp [he]
  · simp only [he, ↓reduceIte, ne_eq, not_false_eq_true, true_and]
    rw [← htarget, ← hrules]
    cases fn.blockIds.findSome? fn.targetFault? with
    | some m => simp
    | none => simp

theorem wellFormed_of_malformed?_eq_none (h : fn.malformed? = none) : fn.WellFormed := by
  obtain ⟨hne, htargets, hrules⟩ := malformed?_eq_none_iff_rules.mp h
  refine ⟨hne, ?_, ?_, ?_, ?_, ?_⟩
  · intro block hmem
    obtain ⟨b, hb⟩ := mem_blocks_iff.mp hmem
    exact htargets b block hb
  · intro block hmem
    obtain ⟨b, hb⟩ := mem_blocks_iff.mp hmem
    obtain ⟨ht, ho, -⟩ := hrules b block hb
    obtain ⟨before, last, he, hk⟩ := terminator?_ne_none_iff.mp ht
    refine ⟨before, last, he, hk, ?_⟩
    intro x hx hxk
    obtain ⟨pre, post, rfl⟩ := List.append_of_mem hx
    rw [he, List.append_assoc, List.cons_append] at ho
    simpa using ho.eq_nil_of_terminator hxk
  · intro block hmem before x y after he hy
    obtain ⟨b, hb⟩ := mem_blocks_iff.mp hmem
    obtain ⟨-, ho, -⟩ := hrules b block hb
    rw [he] at ho
    exact ho.merge_of_next hy
  · intro b block hb x hx hk
    obtain ⟨-, -, hs⟩ := hrules b block hb
    obtain ⟨hnodup, hmem⟩ := (hs x hx).1 hk
    exact ⟨hnodup, fun p => (hmem p).trans mem_pred⟩
  · intro x hx
    obtain ⟨b, block, hb, hx⟩ := mem_code_iff.mp hx
    exact ((hrules b block hb).2.2 x hx).2

theorem WellFormed.malformed?_eq_none (h : fn.WellFormed) : fn.malformed? = none := by
  refine malformed?_eq_none_iff_rules.mpr
    ⟨h.nonempty, fun b block hb => h.targets block (mem_blocks hb), ?_⟩
  intro b block hb
  obtain ⟨before, last, he, hk, hbefore⟩ := h.ended block (mem_blocks hb)
  refine ⟨terminator?_ne_none_iff.mpr ⟨before, last, he, hk⟩, ordered_of_splits ?_ ?_ ?_, ?_⟩
  · exact fun _ _ _ _ => .inl rfl
  · exact h.mergesLead block (mem_blocks hb)
  · intro pre x post hsplit
    rw [he] at hsplit
    rcases List.eq_nil_or_concat post with rfl | ⟨init, final, rfl⟩
    · obtain ⟨-, rfl⟩ := List.append_singleton_inj.mp hsplit
      simp [hk]
    · -- with something behind it, the instruction stands before the last one
      rw [List.concat_eq_append, ← List.cons_append, ← List.append_assoc] at hsplit
      obtain ⟨rfl, -⟩ := List.append_singleton_inj.mp hsplit
      simp [hbefore x (by simp)]
  · intro x hx
    refine ⟨fun hm => ?_, h.operands x (mem_code hb hx)⟩
    obtain ⟨hnodup, hmem⟩ := h.edges b block hb x hx hm
    exact ⟨hnodup, fun p => (hmem p).trans mem_pred.symm⟩

theorem malformed?_eq_none_iff : fn.malformed? = none ↔ fn.WellFormed :=
  ⟨wellFormed_of_malformed?_eq_none, WellFormed.malformed?_eq_none⟩

namespace WellFormed

theorem pairwise_merges (h : fn.WellFormed) {block : BasicBlock} (hblock : block ∈ fn.blocks) :
    block.code.Pairwise fun x y => y.kind = .merge → x.kind = .merge := by
  let leads := fun x y : Instr => y.kind = .merge → x.kind = .merge
  have : Trans leads leads leads := ⟨fun hxy hyz hz => hxy (hyz hz)⟩
  refine List.isChain_iff_pairwise.mp (List.isChain_iff_forall_rel_of_append_cons_cons.mpr ?_)
  intro x y before after he
  exact h.mergesLead block hblock before x y after he

theorem not_merge_of_mem_body (h : fn.WellFormed) {block : BasicBlock} (hblock : block ∈ fn.blocks)
    {x : Instr} (hx : x ∈ block.body) : x.kind ≠ .merge := by
  have hp : block.body.Pairwise fun x y => y.kind = .merge → x.kind = .merge :=
    (h.pairwise_merges hblock).sublist (List.dropWhile_sublist _)
  unfold BasicBlock.body at hp hx
  cases hb : block.code.dropWhile (·.kind = .merge) with
  | nil => simp [hb] at hx
  | cons y rest =>
    have hy : y.kind ≠ .merge := by
      have hn := List.head?_dropWhile_not (fun x : Instr => decide (x.kind = .merge)) block.code
      simpa [hb] using hn
    rw [hb] at hp hx
    rcases List.mem_cons.mp hx with rfl | hx
    · exact hy
    · exact fun hm => hy ((List.pairwise_cons.mp hp).1 x hx hm)

theorem succ_eq_targets (h : fn.WellFormed) {block : BasicBlock} (hblock : block ∈ fn.blocks)
    {t : Instr} (ht : t ∈ block.code) (hk : t.kind = .terminator) :
    block.code.getLast? = some t ∧ block.succ = t.node.targets := by
  obtain ⟨before, last, he, hlast, hbefore⟩ := h.ended block hblock
  rw [he] at ht
  rcases List.mem_append.mp ht with ht | ht
  · exact absurd hk (hbefore t ht)
  · obtain rfl := List.mem_singleton.mp ht
    have hterm : block.terminator? = some t := by
      simp [BasicBlock.terminator?, he, Option.filter_some, hk]
    exact ⟨by simp [he], by simp [BasicBlock.succ, hterm]⟩

theorem exists_head (h : fn.WellFormed) {block : BasicBlock} (hblock : block ∈ fn.blocks) :
    ∃ y, block.code[block.merges.length]? = some y := by
  obtain ⟨before, last, he, hlast, -⟩ := h.ended block hblock
  have hlen : block.merges.length < block.code.length := by
    have hsplit := congrArg List.length block.merges_append_body
    have hbody : block.body ≠ [] := by
      intro hb
      have hm : last ∈ block.merges := by
        have hall := block.merges_append_body
        rw [hb, List.append_nil] at hall
        simp [hall, he]
      rw [BasicBlock.kind_of_mem_merges hm] at hlast
      cases hlast
    have hpos := List.length_pos_iff.mpr hbody
    rw [List.length_append] at hsplit
    omega
  exact ⟨_, List.getElem?_eq_getElem hlen⟩

end WellFormed

/-- A loop that counts its argument down and its passes up. Nothing reads the number of passes but
the loop itself, and nothing reads the negated square. -/
def countdownHistory : List Change := [
  .addBlock "entry", .addBlock "loop", .addBlock "exit",
  .addTerminator 0 "br" .absent [] [1],
  .addMerge 1 [⟨0, .arg 0 0⟩],
  .addMerge 1 [⟨0, .const 0 0⟩],
  .addPlain 1 "sub" [.instr 0 1, .const 0 1],
  .addPlain 1 "add" [.instr 0 2, .const 0 1],
  .addPlain 1 "mul" [.instr 0 1, .instr 0 1],
  .addPlain 1 "neg" [.instr 0 5],
  .addEdge (.instr 0 1) ⟨1, .instr 0 3⟩,
  .addEdge (.instr 0 2) ⟨1, .instr 0 4⟩,
  .addTerminator 1 "br" (.instr 0 3) [] [1, 2],
  .addTerminator 2 "ret" .absent [.instr 0 3] []]

def countdown : Func := changeAll ⟨0, "countdown", 1, 0, 0, [], []⟩ countdownHistory

theorem create_countdown :
    create 0 "countdown" 1 = .ok ⟨0, "countdown", 1, 0, 0, [], []⟩ := rfl

theorem consistent_countdown : countdown.Consistent :=
  (consistent_create create_countdown).changeAll _

theorem malformed?_countdown : countdown.malformed? = none := by decide

end Func
end DeadCode
