import DeadCode.Proofs.Elimination.NeverHalts
import DeadCode.Proofs.Liveness.Strict

/-! # Local deadness in strict functions

A removal leaves the ways of control as they are, and what a remaining instruction reads remains; so
it keeps a function strict. In every round of an elimination, then, asking where an instruction
stands and asking the whole function find the same instructions dead, and the two eliminations are
one and the same.
-/
namespace DeadCode
namespace Func
variable {fn : Func} {ins : List Int}

theorem codeOf_without (b : Int) :
    (fn.without ins).codeOf b = (fn.codeOf b).filter (·.id ∉ ins) := by
  unfold codeOf
  rw [block?_without]
  cases fn.block? b with
  | none => rfl
  | some block => rfl

theorem executed_without (way : List Int) :
    (fn.without ins).executed way = (fn.executed way).filter (·.id ∉ ins) := by
  rw [executed, executed, List.filter_flatMap, funext codeOf_without]

/-- Finds an entry of a filtered list, and the entries in front of it, in the list itself. -/
theorem exists_getElem?_of_filter {α : Type} {keep : α → Bool} {l : List α} {k : Nat} {x : α}
    (h : (l.filter keep)[k]? = some x) :
    keep x = true ∧ ∃ j, l[j]? = some x ∧ (l.filter keep).take k = (l.take j).filter keep := by
  obtain ⟨hlt, hx⟩ := List.getElem?_eq_some_iff.mp h
  have hsplit : l.filter keep = (l.filter keep).take k ++ x :: (l.filter keep).drop (k + 1) := by
    rw [← hx, ← List.drop_eq_getElem_cons hlt, List.take_append_drop]
  obtain ⟨front, rest, rfl, hfront, hrest⟩ := List.filter_eq_append_iff.mp hsplit
  obtain ⟨mid, back, rfl, hmid, hkeep, -⟩ := List.filter_eq_cons_iff.mp hrest
  refine ⟨hkeep, (front ++ mid).length, ?_, ?_⟩
  · simp [← List.append_assoc]
  · rw [← hfront, ← List.append_assoc, List.take_left, List.filter_append,
      List.filter_eq_nil_iff.mpr hmid, List.append_nil]

namespace Removable

theorem leads_iff (hr : fn.Removable ins) (hc : fn.Consistent) (hw : fn.WellFormed)
    {way : List Int} {b : Int} : (fn.without ins).Leads way b ↔ fn.Leads way b := by
  constructor
  · intro h
    induction h with
    | entry => exact .entry
    | step _ hs ih => exact .step ih (hr.succ_eq hc hw _ ▸ hs)
  · intro h
    induction h with
    | entry => exact .entry
    | step _ hs ih => exact .step ih ((hr.succ_eq hc hw _).symm ▸ hs)

theorem strict (hr : fn.Removable ins) (hc : fn.Consistent) (hw : fn.WellFormed)
    (hs : fn.Strict) : (fn.without ins).Strict := by
  constructor
  · intro b hb
    have hb' : fn.hasBlock b := by simpa [hasBlock, Func.without] using hb
    obtain ⟨way, hway⟩ := hs.reached b hb'
    exact ⟨way, (hr.leads_iff hc hw).mpr hway⟩
  · intro b k x i hx hop way hway
    rw [codeOf_without] at hx
    obtain ⟨hstay, j, hj, htake⟩ := exists_getElem?_of_filter hx
    obtain ⟨d, hd, hid⟩ := hs.operands b j x i hj hop way ((hr.leads_iff hc hw).mp hway)
    have hi : i ∉ ins := by
      intro hi
      apply hr.unused x (mem_code_of_mem_codeOf (List.mem_of_getElem? hj)) (by simpa using hstay) i hi
      exact Node.mem_uses_iff.mpr (.inl hop)
    refine ⟨d, ?_, hid⟩
    rw [executed_without, codeOf_without, htake, ← List.filter_append]
    exact List.mem_filter.mpr ⟨hd, by simpa [hid] using hi⟩
  · intro x hx p i he way hway
    obtain ⟨hx, hstay⟩ := mem_code_without.mp hx
    obtain ⟨d, hd, hid⟩ := hs.edges x hx p i he way ((hr.leads_iff hc hw).mp hway)
    have hi : i ∉ ins := by
      intro hi
      exact hr.unused x hx hstay i hi (Node.mem_uses_iff.mpr (.inr ⟨p, he⟩))
    refine ⟨d, ?_, hid⟩
    rw [executed_without]
    exact List.mem_filter.mpr ⟨hd, by simpa [hid] using hi⟩

end Removable

namespace Strict

theorem pruned (hs : fn.Strict) (hw : fn.WellFormed) (hc : fn.Consistent) : fn.pruned.Strict :=
  hw.removable_unused.strict hc hw hs

/-- With both kinds of deadness the rounds are the same, one by one. -/
theorem course_local (hs : fn.Strict) (hw : fn.WellFormed) (hc : fn.Consistent) (verify : Bool)
    (fuel number : Nat) :
    course true verify fuel number fn = course false verify fuel number fn := by
  induction fuel generalizing fn number with
  | zero => rfl
  | succ fuel ih =>
    have hrem := hw.removable_unused
    rw [hw.course_succ hc (hs.deadInstrs_local hw hc), hw.course_succ hc rfl,
      ih (hs.pruned hw hc) (hrem.wellFormed hc hw) (hrem.consistent hc)]

theorem course?_local (hs : fn.Strict) (hw : fn.WellFormed) (hc : fn.Consistent) (verify : Bool)
    (fuel number : Nat) :
    course? true verify fuel number fn = course? false verify fuel number fn := by
  induction fuel generalizing fn number with
  | zero => rfl
  | succ fuel ih =>
    have hrem := hw.removable_unused
    rw [hw.course?_succ hc (hs.deadInstrs_local hw hc), hw.course?_succ hc rfl,
      ih (hs.pruned hw hc) (hrem.wellFormed hc hw) (hrem.consistent hc)]

end Strict

/-- On a strict function that the verifier accepts, an elimination with local deadness does the same
as a default one: it removes the same instructions in every round and ends in the same way, with the
same function, result, trace and records. No look-up of either fails, and neither is halted. -/
theorem eliminate_local_eq (hc : fn.Consistent) (hv : fn.malformed? = none) (hs : fn.Strict)
    (o : Options) :
    (fn.begun { o with localDeadness := true }).rounds =
        (fn.begun { o with localDeadness := false }).rounds ∧
      fn.eliminate { o with localDeadness := true } =
        fn.eliminate { o with localDeadness := false } ∧
      ∀ localOnly, course? localOnly o.verifyRounds (fn.code.length + 1) 1 fn =
          some (fn.begun { o with localDeadness := localOnly }) ∧
        ∀ fault, (fn.eliminate { o with localDeadness := localOnly }).ending ≠ .halted fault := by
  have hw := malformed?_eq_none_iff.mp hv
  have hcourse := hs.course_local hw hc o.verifyRounds (fn.code.length + 1) 1
  have hbegun : fn.begun { o with localDeadness := true } =
      fn.begun { o with localDeadness := false } := hcourse
  have helim : fn.eliminate { o with localDeadness := true } =
      fn.eliminate { o with localDeadness := false } := by
    simp only [eliminate, reject, hcourse]
  have hdefault : course? false o.verifyRounds (fn.code.length + 1) 1 fn =
        some (fn.begun { o with localDeadness := false }) ∧
      ∀ fault, (fn.eliminate { o with localDeadness := false }).ending ≠ .halted fault := by
    refine ⟨hw.course?_eq hc _ 1 (by omega), fun fault => ?_⟩
    by_cases ht : fn.writeTrace o.trace = none
    · simp [eliminate, hv, ht, reject]
    · have hfault := (hw.completes_course hc o.verifyRounds 1 (Nat.lt_succ_self _)).unstopped
      rw [(eliminate_of_begun (o := { o with localDeadness := false }) hv ht hfault).2.2]
      exact Ending.noConfusion
  refine ⟨by rw [hbegun], helim, fun localOnly => ?_⟩
  cases localOnly with
  | false => exact hdefault
  | true =>
    rw [helim, hbegun, hs.course?_local hw hc]
    exact hdefault

theorem mem_of_leads_countdown {way : List Int} (h : countdown.Leads way 2) : 1 ∈ way := by
  generalize hb : (2 : Int) = b at h
  cases h with
  | entry => cases hb
  | @step way c _ _ hs =>
    subst hb
    have hc : c ∈ countdown.blockIds := by
      apply mem_blockIds.mpr
      apply hasBlock_iff.mpr
      cases hblock : countdown.block? c with
      | none => simp [succ, hblock] at hs
      | some block => rfl
    have hlast : ∀ b ∈ countdown.blockIds, 2 ∈ countdown.succ b → b = 1 := by decide
    simp [hlast c hc hs]

theorem strict_countdown : countdown.Strict := by
  have hentry : countdown.Leads [] 0 := .entry
  have hloop : countdown.Leads [0] 1 := .step hentry (by decide)
  have hexit : countdown.Leads [0, 1] 2 := .step hloop (by decide)
  constructor
  · intro b hb
    have hids : b ∈ countdown.blockIds := mem_blockIds.mpr hb
    have hlist : countdown.blockIds = [0, 1, 2] := by decide
    simp only [hlist, List.mem_cons, List.not_mem_nil, or_false] at hids
    rcases hids with rfl | rfl | rfl
    · exact ⟨_, hentry⟩
    · exact ⟨_, hloop⟩
    · exact ⟨_, hexit⟩
  · intro b k x i hx hop way hway
    -- every operand is computed in the same block, but for the one read at the exit
    have hops : ∀ p ∈ countdown.places, ∀ x ∈ countdown.at? p, ∀ v ∈ x.node.operands,
        ∀ i ∈ v.instr?, (∃ d ∈ (countdown.codeOf p.block).take p.index, d.id = i) ∨
          p.block = 2 ∧ i = 3 := by decide
    rw [← at?_eq_codeOf] at hx
    rcases hops ⟨b, k⟩ (mem_places.mpr ⟨x, hx⟩) x hx _ hop i rfl with ⟨d, hd, hid⟩ | ⟨hb, hi⟩
    · exact ⟨d, List.mem_append_right _ hd, hid⟩
    · have hcounter : ∃ d ∈ countdown.codeOf 1, d.id = 3 := by decide
      obtain ⟨d, hd, hid⟩ := hcounter
      dsimp only at hb
      subst hb hi
      have hrun := List.mem_flatMap.mpr ⟨1, mem_of_leads_countdown hway, hd⟩
      exact ⟨d, List.mem_append_left _ hrun, hid⟩
  · intro x hx p i he way _
    have hedges : ∀ x ∈ countdown.code, ∀ e ∈ x.node.edges, ∀ i ∈ e.value.instr?,
        ∃ d ∈ countdown.codeOf e.pred, d.id = i := by decide
    obtain ⟨d, hd, hid⟩ := hedges x hx _ he i rfl
    rw [executed_concat]
    exact ⟨d, List.mem_append_right _ hd, hid⟩

theorem eliminate_countdown_local_eq :
    countdown.Consistent ∧ countdown.malformed? = none ∧ countdown.Strict ∧
      (countdown.eliminate ⟨1, true, true, none, .standard false⟩).result = ⟨3, 2, [1, 1, 0]⟩ ∧
      countdown.eliminate ⟨1, true, true, none, .standard false⟩ =
        countdown.eliminate ⟨1, true, false, none, .standard false⟩ :=
  ⟨consistent_countdown, malformed?_countdown, strict_countdown, by decide,
    (eliminate_local_eq consistent_countdown malformed?_countdown strict_countdown
      ⟨1, true, true, none, .standard false⟩).2.1⟩

end Func
end DeadCode
