import DeadCode.Proofs.Verification
import Mathlib.Data.List.Count

/-! # The verifier names the first fault

What can be wrong with a function is listed rule by rule, each with the place where it shows. The
verifier accepts a function that breaks none of them. Otherwise the rule that it names is broken at
the place that it names, and no place that it looks at earlier has anything wrong with it: targets
come before all else, then the blocks in turn, in each of them first its end and then its
instructions from the first to the last.
-/
namespace DeadCode

def BasicBlock.Ended (block : BasicBlock) : Prop :=
  ∃ before last, block.code = before ++ [last] ∧ last.kind = .terminator

theorem BasicBlock.Ended.kind_of_last {block : BasicBlock} (h : block.Ended) {k : Nat} {x : Instr}
    (hx : block.code[k]? = some x) (hk : k + 1 = block.code.length) : x.kind = .terminator := by
  obtain ⟨before, last, he, hlast⟩ := h
  rw [he, List.length_append, List.length_singleton, Nat.add_right_cancel_iff] at hk
  rw [he, hk, List.getElem?_concat_length] at hx
  exact Option.some.inj hx ▸ hlast

theorem findSome?_eq_some_iff_least {α β : Type} [LT α] (hasymm : ∀ a b : α, a < b → ¬ b < a)
    {l : List α} (hl : l.Pairwise (· < ·)) {f : α → Option β} {r : β} :
    l.findSome? f = some r ↔ ∃ a ∈ l, f a = some r ∧ ∀ c ∈ l, c < a → f c = none := by
  induction l with
  | nil => simp
  | cons d rest ih =>
    obtain ⟨hd, hrest⟩ := List.pairwise_cons.mp hl
    rw [List.findSome?_cons]
    cases hf : f d with
    | some r' =>
      constructor
      · rintro ⟨⟩
        refine ⟨d, List.mem_cons_self, hf, fun c hc hlt => ?_⟩
        rcases List.mem_cons.mp hc with rfl | hc
        · exact absurd hlt (hasymm c c hlt)
        · exact absurd hlt (hasymm d c (hd c hc))
      · rintro ⟨a, ha, hfa, hleast⟩
        rcases List.mem_cons.mp ha with rfl | ha
        · exact hf.symm.trans hfa
        · rw [hleast d List.mem_cons_self (hd a ha)] at hf
          cases hf
    | none =>
      simp only [ih hrest, List.mem_cons, exists_eq_or_imp, hf, forall_eq_or_imp]
      simp

namespace Func
variable {fn : Func}

inductive Unreadable (fn : Func) : Value → Violation → Prop
  | absent : fn.Unreadable .absent .missingOperand
  | foreignArg {owner : Nat} {i : Int} (ho : owner ≠ fn.id) :
      fn.Unreadable (.arg owner i) (.foreignArg (.arg owner i))
  | argRange {i : Int} (hi : ¬ (0 ≤ i ∧ i < fn.argCount)) :
      fn.Unreadable (.arg fn.id i) (.argRange (.arg fn.id i))
  | foreignInstr {owner : Nat} {i : Int} (ho : owner ≠ fn.id) :
      fn.Unreadable (.instr owner i) (.foreignInstr (.instr owner i))
  | dangling {i : Int} (hi : fn.alive i = false) :
      fn.Unreadable (.instr fn.id i) (.dangling (.instr fn.id i))
  | terminator {i : Int} {s : Slot} (hs : fn.slot i = .ok s) (hk : s.kind = .terminator) :
      fn.Unreadable (.instr fn.id i) (.terminatorValue (.instr fn.id i))

/-- What `x` can do wrong, the instruction with index `k` in the code of block `b`. -/
inductive InstrBreaks (fn : Func) (b : Int) (code : List Instr) (k : Nat) (x : Instr) :
    Violation → Prop
  | earlyTerminator (hk : x.kind = .terminator) (hlast : k + 1 < code.length) :
      fn.InstrBreaks b code k x (.earlyTerminator x.id)
  | lateMerge {j : Nat} {y : Instr} (hk : x.kind = .merge) (hj : k = j + 1) (hy : code[j]? = some y)
      (hyk : y.kind ≠ .merge) : fn.InstrBreaks b code k x (.lateMerge x.id)
  | strayEdge {p : Int} (hp : p ∈ x.node.edges.map (·.pred)) (hb : ¬ (fn.hasBlock p ∧ b ∈ fn.succ p)) :
      fn.InstrBreaks b code k x (.strayEdge p)
  | repeatedEdge {p : Int} (hp : 1 < (x.node.edges.map (·.pred)).count p) :
      fn.InstrBreaks b code k x (.repeatedEdge p)
  | missingEdge {p : Int} (hk : x.kind = .merge) (hp : p ∉ x.node.edges.map (·.pred))
      (hb : fn.hasBlock p ∧ b ∈ fn.succ p) : fn.InstrBreaks b code k x (.missingEdge p)
  | operand {v : Value} {why : Violation} (hv : v ∈ x.node.uses) (h : fn.Unreadable v why) :
      fn.InstrBreaks b code k x why

/-- The rules of a function, each with the place where it shows that the rule is broken. -/
inductive Breaks (fn : Func) : Position → Violation → Prop
  | noBlocks (h : fn.blocks = []) : fn.Breaks .whole .noBlocks
  | strayTarget {b s : Int} {block : BasicBlock} (hb : fn.block? b = some block) (hs : s ∈ block.succ)
      (hstray : ¬ fn.hasBlock s) : fn.Breaks (.instr b (block.code.length - 1)) (.strayTarget s)
  | noTerminator {b : Int} {block : BasicBlock} (hb : fn.block? b = some block)
      (hopen : ¬ block.Ended) : fn.Breaks (.block b) .noTerminator
  | instr {b : Int} {block : BasicBlock} {k : Nat} {x : Instr} {why : Violation}
      (hb : fn.block? b = some block) (hx : block.code[k]? = some x)
      (h : fn.InstrBreaks b block.code k x why) : fn.Breaks (.instr b k) why

def FaultyAt (fn : Func) (b : Int) (k : Nat) : Prop :=
  ∃ block x why, fn.block? b = some block ∧ block.code[k]? = some x ∧
    fn.InstrBreaks b block.code k x why

def Faulty (fn : Func) (b : Int) : Prop :=
  (∃ block, fn.block? b = some block ∧ ¬ block.Ended) ∨ ∃ k, fn.FaultyAt b k

/-- The place of the first fault: there is no block; or it is the end of the lowest block with a
target outside the function; or, with all targets inside, it is in the lowest block that has a fault,
the block as a whole if it lacks its terminator, else its first instruction that breaks a rule. -/
inductive FirstFault (fn : Func) : Position → Prop
  | whole (h : fn.blocks = []) : fn.FirstFault .whole
  | target {b s : Int} {block : BasicBlock} (hb : fn.block? b = some block) (hs : s ∈ block.succ)
      (hstray : ¬ fn.hasBlock s) (hlow : ∀ c < b, ∀ t ∈ fn.succ c, fn.hasBlock t) :
      fn.FirstFault (.instr b (block.code.length - 1))
  | block {b : Int} {block : BasicBlock} (htargets : ∀ c, ∀ t ∈ fn.succ c, fn.hasBlock t)
      (hlow : ∀ c < b, ¬ fn.Faulty c) (hb : fn.block? b = some block) (hopen : ¬ block.Ended) :
      fn.FirstFault (.block b)
  | instr {b : Int} {block : BasicBlock} {k : Nat} (htargets : ∀ c, ∀ t ∈ fn.succ c, fn.hasBlock t)
      (hlow : ∀ c < b, ¬ fn.Faulty c) (hb : fn.block? b = some block) (hended : block.Ended)
      (hk : fn.FaultyAt b k) (hfirst : ∀ j < k, ¬ fn.FaultyAt b j) : fn.FirstFault (.instr b k)

theorem valueFault?_eq_some {v : Value} {why : Violation} (h : fn.valueFault? v = some why) :
    fn.Unreadable v why := by
  cases v with
  | absent =>
    cases h
    exact .absent
  | const owner n => cases h
  | arg owner i =>
    simp only [valueFault?] at h
    split at h
    · next ho =>
      cases h
      exact .foreignArg ho
    · next ho =>
      obtain rfl := not_not.mp ho
      split at h
      · cases h
      · next hi =>
        cases h
        exact .argRange hi
  | instr owner i =>
    simp only [valueFault?] at h
    split at h
    · next ho =>
      cases h
      exact .foreignInstr ho
    · next ho =>
      obtain rfl := not_not.mp ho
      cases hs : fn.slot i with
      | error m =>
        simp only [hs, Option.some.injEq] at h
        subst h
        refine .dangling (Bool.eq_false_iff.mpr fun ha => ?_)
        obtain ⟨s, hn⟩ := alive_eq_true_iff.mp ha
        rw [slot_eq_ok_iff.mpr hn] at hs
        cases hs
      | ok s =>
        simp only [hs] at h
        split at h
        · next hk =>
          cases h
          exact .terminator hs hk
        · cases h

theorem Unreadable.not_readable {v : Value} {why : Violation} (h : fn.Unreadable v why) :
    ¬ fn.Readable v := by
  cases h with
  | absent => exact fun hr => hr
  | foreignArg ho => exact fun hr => ho hr.1
  | argRange hi => exact fun hr => hi hr.2
  | foreignInstr ho => exact fun hr => ho hr.1
  | dangling hi =>
    rintro ⟨-, s, hs, ha, -⟩
    rw [alive_eq_true_iff.mpr ⟨s, hs, ha⟩] at hi
    cases hi
  | terminator hs hk =>
    rintro ⟨-, t, ht, ha, htk⟩
    obtain rfl := Option.some.inj ((slot_eq_ok_iff.mp hs).1.symm.trans ht)
    exact htk hk

/-- What a fault among the edges can be, those from `seen` being checked already: an edge comes from
a block that is no predecessor, or two edges come from the same block, or a value cannot be read. -/
theorem edgeFault?_eq_some {preds seen : List Int} {edges : List Edge} {why : Violation}
    (h : fn.edgeFault? preds seen edges = some why) :
    (∃ p ∈ edges.map (·.pred), p ∉ preds ∧ why = .strayEdge p) ∨
      (∃ p, 1 < (seen ++ edges.map (·.pred)).count p ∧ why = .repeatedEdge p) ∨
      ∃ e ∈ edges, fn.Unreadable e.value why := by
  induction edges generalizing seen with
  | nil => cases h
  | cons e rest ih =>
    rw [edgeFault?] at h
    split at h
    · next hp =>
      cases h
      exact .inl ⟨e.pred, by simp, hp, rfl⟩
    · split at h
      · next hs =>
        cases h
        refine .inr (.inl ⟨e.pred, ?_, rfl⟩)
        have hpos := List.count_pos_iff.mpr hs
        simp only [List.map_cons, List.count_append, List.count_cons_self]
        omega
      · cases hv : fn.valueFault? e.value with
        | some fault =>
          simp only [hv, Option.some.injEq] at h
          subst h
          exact .inr (.inr ⟨e, List.mem_cons_self, valueFault?_eq_some hv⟩)
        | none =>
          simp only [hv] at h
          rcases ih h with ⟨p, hp, hn⟩ | ⟨p, hp, hw⟩ | ⟨d, hd, hu⟩
          · exact .inl ⟨p, List.mem_cons_of_mem _ hp, hn⟩
          · refine .inr (.inl ⟨p, ?_, hw⟩)
            rwa [List.map_cons, List.perm_middle.count_eq]
          · exact .inr (.inr ⟨d, List.mem_cons_of_mem _ hd, hu⟩)

theorem mergeFault?_eq_some {b : Int} {code : List Instr} {k : Nat} {x : Instr} {why : Violation}
    (hk : x.kind = .merge) (hedges : x.node.uses = x.node.edges.map (·.value))
    (h : fn.mergeFault? b (fn.pred b) x.node.edges = some why) : fn.InstrBreaks b code k x why := by
  unfold mergeFault? at h
  cases he : fn.edgeFault? (fn.pred b) [] x.node.edges with
  | some fault =>
    simp only [he, Option.some.injEq] at h
    subst h
    rcases edgeFault?_eq_some he with ⟨p, hp, hn, rfl⟩ | ⟨p, hp, rfl⟩ | ⟨e, hin, hu⟩
    · exact .strayEdge hp fun hb => hn (mem_pred.mpr hb)
    · exact .repeatedEdge hp
    · exact .operand (hedges ▸ List.mem_map_of_mem hin) hu
  | none =>
    simp only [he] at h
    obtain ⟨p, hp, rfl⟩ := Option.map_eq_some_iff.mp h
    have hmiss := List.find?_some hp
    exact .missingEdge hk (by simpa using hmiss) (mem_pred.mp (List.mem_of_find?_eq_some hp))

theorem findSome?_valueFault?_eq_some {b : Int} {code : List Instr} {k : Nat} {x : Instr}
    {why : Violation} (h : x.node.uses.findSome? fn.valueFault? = some why) :
    fn.InstrBreaks b code k x why := by
  obtain ⟨v, hv, hw⟩ := List.exists_of_findSome?_eq_some h
  exact .operand hv (valueFault?_eq_some hw)

def kindBefore (code : List Instr) : Nat → Option Kind
  | 0 => none
  | k + 1 => code[k]?.map (·.kind)

def faultAt? (fn : Func) (b : Int) (code : List Instr) (k : Nat) : Option Violation :=
  code[k]?.bind fun x =>
    fn.instrFault? b (fn.pred b) (kindBefore code k) (decide (k + 1 = code.length)) x

/-- In a block that ends in a terminator nothing else ends the block, so the checks of plain
instructions and merges for that never fail. -/
theorem breaks_of_faultAt? {b : Int} {block : BasicBlock} (hended : block.Ended) {k : Nat}
    {why : Violation} (h : fn.faultAt? b block.code k = some why) :
    ∃ x, block.code[k]? = some x ∧ fn.InstrBreaks b block.code k x why := by
  obtain ⟨x, hx, hf⟩ := Option.bind_eq_some_iff.mp h
  refine ⟨x, hx, ?_⟩
  have hlt := (List.getElem?_eq_some_iff.mp hx).1
  obtain ⟨id, node⟩ := x
  cases node with
  | plain op args =>
    simp only [instrFault?] at hf
    split at hf
    · next hlast => cases hended.kind_of_last hx (of_decide_eq_true hlast)
    · exact findSome?_valueFault?_eq_some hf
  | merge edges =>
    simp only [instrFault?] at hf
    split at hf
    · next hlast => cases hended.kind_of_last hx (of_decide_eq_true hlast)
    · split at hf
      · exact mergeFault?_eq_some rfl rfl hf
      · next hbefore =>
        cases hf
        cases k with
        | zero => exact absurd (.inl rfl) hbefore
        | succ j =>
          have hj : j < block.code.length := by omega
          refine .lateMerge rfl rfl (List.getElem?_eq_getElem hj) fun hm => hbefore (.inr ?_)
          simp [kindBefore, hj, hm]
  | term op cond args succ =>
    simp only [instrFault?] at hf
    split at hf
    · exact findSome?_valueFault?_eq_some hf
    · next hlast =>
      cases hf
      simp only [decide_eq_true_eq] at hlast
      exact .earlyTerminator rfl (by omega)

theorem InstrBreaks.faultAt?_ne_none {b : Int} {code : List Instr} {k : Nat} {x : Instr}
    {why : Violation} (hx : code[k]? = some x) (h : fn.InstrBreaks b code k x why) :
    fn.faultAt? b code k ≠ none := by
  intro hn
  simp only [faultAt?, hx, Option.bind_some] at hn
  obtain ⟨hmerge, hterm, hcovers, hread⟩ := instrFault?_eq_none_iff.mp hn
  have hedges : ∀ p ∈ x.node.edges.map (·.pred), x.kind = .merge := by
    intro p hp
    obtain ⟨e, he, -⟩ := List.mem_map.mp hp
    exact Node.kind_of_mem_edges he
  cases h with
  | earlyTerminator hk hlast =>
    have := of_decide_eq_true (hterm.mp hk)
    omega
  | lateMerge hk hj hy hyk =>
    subst hj
    have hbefore := hmerge hk
    simp [kindBefore, hy, hyk] at hbefore
  | strayEdge hp hb => exact hb (mem_pred.mp (((hcovers (hedges _ hp)).2 _).mp hp))
  | @repeatedEdge p hp =>
    have hmem : p ∈ x.node.edges.map (·.pred) := List.count_pos_iff.mp (by omega)
    have hle := List.nodup_iff_count_le_one.mp (hcovers (hedges p hmem)).1 p
    omega
  | missingEdge hk hp hb => exact hp (((hcovers hk).2 _).mpr (mem_pred.mpr hb))
  | operand hv hu => exact hu.not_readable (hread _ hv)

theorem faultAt?_eq_none_iff {b : Int} {block : BasicBlock} (hb : fn.block? b = some block)
    (hended : block.Ended) {k : Nat} : fn.faultAt? b block.code k = none ↔ ¬ fn.FaultyAt b k := by
  constructor
  · rintro hn ⟨other, x, why, ho, hx, h⟩
    obtain rfl := Option.some.inj (hb.symm.trans ho)
    exact h.faultAt?_ne_none hx hn
  · intro hgood
    cases hf : fn.faultAt? b block.code k with
    | none => rfl
    | some why =>
      obtain ⟨x, hx, h⟩ := breaks_of_faultAt? hended hf
      exact absurd ⟨block, x, why, hb, hx, h⟩ hgood

/-- The check of a block looks at its instructions one after another. Here those of `front` have
been checked. -/
theorem codeFault?_append (b : Int) (front code : List Instr) :
    fn.codeFault? b (fn.pred b) front.length (kindBefore front front.length) code =
      (List.range' front.length code.length).findSome? fun k =>
        (fn.faultAt? b (front ++ code) k).map (Prod.mk k) := by
  induction code generalizing front with
  | nil => rfl
  | cons x rest ih =>
    have hat : fn.faultAt? b (front ++ x :: rest) front.length =
        fn.instrFault? b (fn.pred b) (kindBefore front front.length) rest.isEmpty x := by
      have hbefore : kindBefore (front ++ x :: rest) front.length =
          kindBefore front front.length := by
        cases hn : front.length with
        | zero => rfl
        | succ n => simp [kindBefore, List.getElem?_append_left (by omega : n < front.length)]
      have hlast : decide (front.length + 1 = (front ++ x :: rest).length) = rest.isEmpty := by
        cases rest with
        | nil => simp
        | cons y rest => simp
      simp only [faultAt?, hbefore, hlast]
      simp
    rw [codeFault?, List.length_cons, List.range'_succ, List.findSome?_cons, hat]
    cases fn.instrFault? b (fn.pred b) (kindBefore front front.length) rest.isEmpty x with
    | some fault => rfl
    | none =>
      have hrest := ih (front ++ [x])
      simpa [kindBefore] using hrest

theorem codeFault?_eq (b : Int) (code : List Instr) :
    fn.codeFault? b (fn.pred b) 0 none code =
      (List.range code.length).findSome? fun k => (fn.faultAt? b code k).map (Prod.mk k) := by
  rw [List.range_eq_range']
  exact codeFault?_append b [] code

theorem not_faulty_iff {b : Int} {block : BasicBlock} (hb : fn.block? b = some block) :
    ¬ fn.Faulty b ↔ block.Ended ∧ ∀ k, ¬ fn.FaultyAt b k := by
  simp [Faulty, hb]

theorem blockFault?_eq_none_iff_not_faulty {b : Int} :
    fn.blockFault? fn.predTable b = none ↔ ¬ fn.Faulty b := by
  cases hb : fn.block? b with
  | none => simp [blockFault?, Faulty, FaultyAt, hb]
  | some block =>
    rw [not_faulty_iff hb, BasicBlock.Ended, ← terminator?_ne_none_iff]
    simp only [blockFault?, hb]
    by_cases ht : block.terminator? = none
    · simp [ht]
    · have hended : block.Ended := terminator?_ne_none_iff.mp ht
      simp only [ht, ↓reduceIte, Option.map_eq_none_iff, rowOf_predTable, codeFault?_eq,
        List.findSome?_eq_none_iff, List.mem_range, ne_eq, not_false_eq_true, true_and]
      refine forall_congr' fun k => ?_
      rw [← faultAt?_eq_none_iff hb hended]
      refine ⟨fun h => ?_, fun h _ => h⟩
      by_cases hk : k < block.code.length
      · exact h hk
      · simp [faultAt?, List.getElem?_eq_none (by omega : block.code.length ≤ k)]

theorem blockFault?_eq_some {b : Int} {m : Malformed}
    (h : fn.blockFault? fn.predTable b = some m) :
    ∃ block, fn.block? b = some block ∧ m.func = fn.name ∧ fn.Breaks m.position m.violation ∧
      (¬ block.Ended ∧ m.position = .block b ∨
        block.Ended ∧ ∃ k : Nat, m.position = .instr b k ∧ fn.FaultyAt b k ∧
          ∀ j < k, ¬ fn.FaultyAt b j) := by
  cases hb : fn.block? b with
  | none => simp [blockFault?, hb] at h
  | some block =>
    refine ⟨block, rfl, ?_⟩
    simp only [blockFault?, hb] at h
    split at h
    · next ht =>
      cases h
      have hopen : ¬ block.Ended := fun he => terminator?_ne_none_iff.mpr he ht
      exact ⟨rfl, .noTerminator hb hopen, .inl ⟨hopen, rfl⟩⟩
    · next ht =>
      have hended : block.Ended := terminator?_ne_none_iff.mp ht
      obtain ⟨⟨k, why⟩, hk, rfl⟩ := Option.map_eq_some_iff.mp h
      rw [rowOf_predTable, codeFault?_eq,
        findSome?_eq_some_iff_least @Nat.lt_asymm List.pairwise_lt_range] at hk
      obtain ⟨k', hrange, hwhy, hfirst⟩ := hk
      obtain ⟨why', hwhy, he⟩ := Option.map_eq_some_iff.mp hwhy
      cases he
      obtain ⟨x, hx, hbreaks⟩ := breaks_of_faultAt? hended hwhy
      refine ⟨rfl, .instr hb hx hbreaks, .inr ⟨hended, k, rfl,
        ⟨block, x, why, hb, hx, hbreaks⟩, fun j hj => ?_⟩⟩
      have hjr := List.mem_range.mpr (hj.trans (List.mem_range.mp hrange))
      exact (faultAt?_eq_none_iff hb hended).mp (Option.map_eq_none_iff.mp (hfirst j hjr hj))

theorem findSome?_blockIds_eq_some_iff {β : Type} {f : Int → Option β} {r : β} :
    fn.blockIds.findSome? f = some r ↔
      ∃ b ∈ fn.blockIds, f b = some r ∧ ∀ c ∈ fn.blockIds, c < b → f c = none :=
  findSome?_eq_some_iff_least @Int.lt_asymm fn.pairwise_blockIds

theorem targetFault?_eq_some {b : Int} {m : Malformed} (h : fn.targetFault? b = some m) :
    ∃ block s, fn.block? b = some block ∧ s ∈ block.succ ∧ ¬ fn.hasBlock s ∧
      m = ⟨fn.name, .instr b (block.code.length - 1), .strayTarget s⟩ := by
  cases hb : fn.block? b with
  | none => simp [targetFault?, hb] at h
  | some block =>
    simp only [targetFault?, hb] at h
    obtain ⟨s, hs, rfl⟩ := Option.map_eq_some_iff.mp h
    have hstray := List.find?_some hs
    exact ⟨block, s, rfl, List.mem_of_find?_eq_some hs, by simpa using hstray, rfl⟩

theorem targetFault?_eq_none_iff_succ {b : Int} :
    fn.targetFault? b = none ↔ ∀ t ∈ fn.succ b, fn.hasBlock t := by
  cases hb : fn.block? b with
  | none => simp [targetFault?, succ, hb]
  | some block => simpa [succ, hb] using targetFault?_eq_none_iff hb

theorem of_least {β : Type} {f : Int → Option β} {b : Int} (hout : ∀ c, ¬ fn.hasBlock c → f c = none)
    (hlow : ∀ c ∈ fn.blockIds, c < b → f c = none) : ∀ c < b, f c = none := by
  intro c hlt
  by_cases hc : fn.hasBlock c
  · exact hlow c (mem_blockIds.mpr hc) hlt
  · exact hout c hc

theorem block?_eq_none {c : Int} (hc : ¬ fn.hasBlock c) : fn.block? c = none := by
  rwa [hasBlock_iff, Option.not_isSome_iff_eq_none] at hc

/-- The rule that the verifier names is broken at the place that it names, and no place that it
checks earlier has a fault. -/
theorem malformed?_eq_some {m : Malformed} (h : fn.malformed? = some m) :
    m.func = fn.name ∧ fn.Breaks m.position m.violation ∧ fn.FirstFault m.position := by
  unfold malformed? at h
  split at h
  · next he =>
    cases h
    exact ⟨rfl, .noBlocks he, .whole he⟩
  · cases ht : fn.blockIds.findSome? fn.targetFault? with
    | some m' =>
      simp only [ht, Option.some.injEq] at h
      subst h
      obtain ⟨b, -, hf, hlow⟩ := findSome?_blockIds_eq_some_iff.mp ht
      obtain ⟨block, s, hb, hs, hstray, rfl⟩ := targetFault?_eq_some hf
      refine ⟨rfl, .strayTarget hb hs hstray, .target hb hs hstray fun c hlt => ?_⟩
      refine targetFault?_eq_none_iff_succ.mp (of_least (fun c hc => ?_) hlow c hlt)
      simp [targetFault?, block?_eq_none hc]
    | none =>
      simp only [ht] at h
      have htargets : ∀ c, ∀ t ∈ fn.succ c, fn.hasBlock t := by
        intro c
        rw [← targetFault?_eq_none_iff_succ]
        cases hc : fn.block? c with
        | none => simp [targetFault?, hc]
        | some block => exact findSome?_blockIds_eq_none_iff.mp ht c block hc
      obtain ⟨b, -, hf, hlow⟩ := findSome?_blockIds_eq_some_iff.mp h
      have hlow' : ∀ c < b, ¬ fn.Faulty c := by
        intro c hlt
        refine blockFault?_eq_none_iff_not_faulty.mp (of_least (fun c hc => ?_) hlow c hlt)
        simp [blockFault?, block?_eq_none hc]
      obtain ⟨block, hb, hname, hbreaks, ⟨hopen, hp⟩ | ⟨hended, k, hp, hk, hfirst⟩⟩ :=
        blockFault?_eq_some hf
      · exact ⟨hname, hbreaks, hp ▸ .block htargets hlow' hb hopen⟩
      · exact ⟨hname, hbreaks, hp ▸ .instr htargets hlow' hb hended hk hfirst⟩

theorem Breaks.ne_end {p : Position} {why : Violation} (h : fn.Breaks p why) (i : Int) :
    why ≠ .plainEnd i ∧ why ≠ .mergeEnd i := by
  cases h with
  | noBlocks => simp
  | strayTarget => simp
  | noTerminator => simp
  | instr _ _ h =>
    cases h with
    | operand _ hu => cases hu <;> simp
    | _ => simp

/-- That a plain instruction or a merge ends a block is never reported: such a block has no
terminator, and that is found first. -/
theorem malformed?_violation_ne_end {m : Malformed} (h : fn.malformed? = some m) (i : Int) :
    m.violation ≠ .plainEnd i ∧ m.violation ≠ .mergeEnd i :=
  (malformed?_eq_some h).2.1.ne_end i

theorem blocks_ne_nil {b : Int} {block : BasicBlock} (hb : fn.block? b = some block) :
    fn.blocks ≠ [] := List.ne_nil_of_mem (mem_blocks hb)

theorem malformed?_of_blockFault? {b : Int} {m : Malformed}
    (htargets : ∀ c, ∀ t ∈ fn.succ c, fn.hasBlock t) (hlow : ∀ c < b, ¬ fn.Faulty c)
    (hm : fn.blockFault? fn.predTable b = some m) : fn.malformed? = some m := by
  obtain ⟨block, hb, -⟩ := blockFault?_eq_some hm
  have ht : fn.blockIds.findSome? fn.targetFault? = none := by
    rw [findSome?_blockIds_eq_none_iff]
    intro c _ _
    exact targetFault?_eq_none_iff_succ.mpr (htargets c)
  have hf : fn.blockIds.findSome? (fn.blockFault? fn.predTable) = some m := by
    refine findSome?_blockIds_eq_some_iff.mpr ⟨b, ?_, hm, fun c _ hlt => ?_⟩
    · exact mem_blockIds_of_block? hb
    · exact blockFault?_eq_none_iff_not_faulty.mpr (hlow c hlt)
  simp only [malformed?, blocks_ne_nil hb, ↓reduceIte, ht, hf]

theorem Faulty.exists_malformed {b : Int} (h : fn.Faulty b) :
    ∃ m, fn.blockFault? fn.predTable b = some m :=
  Option.ne_none_iff_exists'.mp fun hn => blockFault?_eq_none_iff_not_faulty.mp hn h

theorem FirstFault.exists_malformed {p : Position} (h : fn.FirstFault p) :
    ∃ m, fn.malformed? = some m ∧ m.position = p := by
  cases h with
  | whole he => exact ⟨⟨fn.name, .whole, .noBlocks⟩, by simp [malformed?, he], rfl⟩
  | @target b s block hb hs hstray hlow =>
    have hsome : fn.targetFault? b ≠ none :=
      fun hn => hstray ((targetFault?_eq_none_iff hb).mp hn s hs)
    obtain ⟨m, hm⟩ := Option.ne_none_iff_exists'.mp hsome
    have hf : fn.blockIds.findSome? fn.targetFault? = some m := by
      refine findSome?_blockIds_eq_some_iff.mpr ⟨b, ?_, hm, fun c _ hlt => ?_⟩
      · exact mem_blockIds_of_block? hb
      · exact targetFault?_eq_none_iff_succ.mpr (hlow c hlt)
    refine ⟨m, by simp only [malformed?, blocks_ne_nil hb, ↓reduceIte, hf], ?_⟩
    obtain ⟨other, t, ho, -, -, rfl⟩ := targetFault?_eq_some hm
    rw [Option.some.inj (ho.symm.trans hb)]
  | @block b block htargets hlow hb hopen =>
    obtain ⟨m, hm⟩ := Faulty.exists_malformed (.inl ⟨block, hb, hopen⟩)
    refine ⟨m, malformed?_of_blockFault? htargets hlow hm, ?_⟩
    obtain ⟨other, ho, -, -, ⟨-, hp⟩ | ⟨hended, -⟩⟩ := blockFault?_eq_some hm
    · exact hp
    · exact absurd (Option.some.inj (ho.symm.trans hb) ▸ hended) hopen
  | @instr b block k htargets hlow hb hended hk hfirst =>
    obtain ⟨m, hm⟩ := Faulty.exists_malformed (.inr ⟨k, hk⟩)
    refine ⟨m, malformed?_of_blockFault? htargets hlow hm, ?_⟩
    obtain ⟨other, ho, -, -, ⟨hopen, -⟩ | ⟨-, j, hp, hj, hfirst'⟩⟩ := blockFault?_eq_some hm
    · exact absurd hended (Option.some.inj (ho.symm.trans hb) ▸ hopen)
    · rcases Nat.lt_trichotomy j k with hlt | rfl | hlt
      · exact absurd hj (hfirst j hlt)
      · exact hp
      · exact absurd hk (hfirst' k hlt)

theorem verify_eq_ok_iff : fn.verify = .ok () ↔ fn.malformed? = none := by
  unfold verify
  cases fn.malformed? with
  | none => simp
  | some m => simp

theorem verify_eq_error_iff {m : Malformed} : fn.verify = .error m ↔ fn.malformed? = some m := by
  unfold verify
  cases fn.malformed? with
  | none => simp
  | some m' => simp

/-- The verifier accepts the well-formed functions and no others, whatever the payloads are and in
whatever order the instructions of a block stand. The error it gives otherwise names the function, a
rule and a place where that rule is broken, and the place is that of the first fault. -/
theorem verify_first_fault (fn : Func) :
    (fn.verify = .ok () ↔ fn.WellFormed) ∧
      (∀ m, fn.verify = .error m → m.func = fn.name ∧ fn.Breaks m.position m.violation) ∧
      ∀ p, (∃ m, fn.verify = .error m ∧ m.position = p) ↔ fn.FirstFault p := by
  refine ⟨verify_eq_ok_iff.trans malformed?_eq_none_iff, ?_, fun p => ⟨?_, fun hp => ?_⟩⟩
  · intro m hm
    obtain ⟨hname, hbreaks, -⟩ := malformed?_eq_some (verify_eq_error_iff.mp hm)
    exact ⟨hname, hbreaks⟩
  · rintro ⟨m, hm, rfl⟩
    exact (malformed?_eq_some (verify_eq_error_iff.mp hm)).2.2
  · obtain ⟨m, hm, hpos⟩ := hp.exists_malformed
    exact ⟨m, verify_eq_error_iff.mpr hm, hpos⟩

-- A target outside the function is named before the open block above it.
example : (changeAll ⟨0, "astray", 0, 0, 0, [], []⟩ [.addBlock "open", .addBlock "end",
    .addTerminator 1 "br" .absent [] [7]]).malformed? =
      some ⟨"astray", .instr 1 0, .strayTarget 7⟩ := by decide

end Func
end DeadCode
