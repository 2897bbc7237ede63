import DeadCode.Func.Strict
import DeadCode.Proofs.Liveness.Unused
import Mathlib.Data.List.Induction

/-! # Where strict functions look for the dead

A value that is read somewhere is followed back along a way from the entry: it is live all along, up
to the instruction that computes it, which the way must have run. So in a strict function a value
that is live anywhere is live right after its own instruction, and to ask there is enough.
-/
namespace DeadCode

theorem Node.operands_of_merge {node : Node} (hk : node.kind = .merge) : node.operands = [] := by
  cases node with
  | plain op args => cases hk
  | merge edges => rfl
  | term op cond args succ => cases hk

namespace Func
variable {fn : Func}

theorem codeOf_eq {b : Int} {block : BasicBlock} (hb : fn.block? b = some block) :
    fn.codeOf b = block.code := by
  simp only [codeOf, hb]

theorem at?_eq_codeOf (b : Int) (k : Nat) : fn.at? ⟨b, k⟩ = (fn.codeOf b)[k]? := by
  unfold at? codeOf
  cases fn.block? b with
  | none => simp
  | some block => rfl

theorem mem_code_of_mem_codeOf {b : Int} {x : Instr} (hx : x ∈ fn.codeOf b) : x ∈ fn.code := by
  cases hb : fn.block? b with
  | none => simp [codeOf, hb] at hx
  | some block =>
    rw [codeOf_eq hb] at hx
    exact mem_code hb hx

theorem mem_code_of_mem_executed {way : List Int} {x : Instr} (hx : x ∈ fn.executed way) :
    x ∈ fn.code := by
  obtain ⟨b, -, hx⟩ := List.mem_flatMap.mp hx
  exact mem_code_of_mem_codeOf hx

theorem executed_concat (way : List Int) (b : Int) :
    fn.executed (way ++ [b]) = fn.executed way ++ fn.codeOf b := by
  simp [executed]

theorem mem_executed_front {way : List Int} {b : Int} {front : List Instr} {last d : Instr}
    (hcode : fn.codeOf b = front ++ [last]) (hlast : last.kind = .terminator)
    (hd : d ∈ fn.executed (way ++ [b])) (hdk : d.kind ≠ .terminator) :
    d ∈ fn.executed way ++ front := by
  rw [executed_concat, hcode, ← List.append_assoc] at hd
  rcases List.mem_append.mp hd with hd | hd
  · exact hd
  · rw [List.mem_singleton.mp hd] at hdk
    exact absurd hlast hdk

theorem WellFormed.not_terminator_of_mem_take (hw : fn.WellFormed) {b : Int} {k : Nat} {x y : Instr}
    (hx : (fn.codeOf b)[k]? = some x) (hy : y ∈ (fn.codeOf b).take k) : y.kind ≠ .terminator := by
  cases hb : fn.block? b with
  | none => simp [codeOf, hb] at hx
  | some block =>
    rw [codeOf_eq hb] at hx hy
    obtain ⟨front, last, hcode, -, hfront⟩ := hw.ended block (mem_blocks hb)
    have hlt := (List.getElem?_eq_some_iff.mp hx).1
    rw [hcode, List.length_append, List.length_singleton] at hlt
    rw [hcode, List.take_append_of_le_length (by omega)] at hy
    exact hfront y (List.mem_of_mem_take hy)

namespace LiveEquations
variable {before after : Place → Value → Prop} {i : Int}

/-- Merges read nothing at their own place, so a value that is live at the start of a block is live
behind its merges. -/
theorem before_of_start (h : fn.LiveEquations before after) {s : Int} {target : BasicBlock}
    (hb : fn.block? s = some target) {v : Value} (hlive : before ⟨s, 0⟩ v) :
    before ⟨s, target.merges.length⟩ v := by
  have hreach : ∀ k ≤ target.merges.length, before ⟨s, k⟩ v := by
    intro k
    induction k with
    | zero => exact fun _ => hlive
    | succ k ih =>
      intro hk
      have hmem : target.merges[k]? = some target.merges[k] := List.getElem?_eq_getElem hk
      have hx : fn.at? ⟨s, k⟩ = some target.merges[k] := by
        rw [at?_eq_codeOf, codeOf_eq hb, ← target.merges_append_body, List.getElem?_append_left hk, hmem]
      have hkind := BasicBlock.kind_of_mem_merges (List.mem_of_getElem? hmem)
      rcases (h.before_iff _ _ v hx).mp (ih (by omega)) with ⟨hop, -⟩ | ⟨hafter, -⟩
      · rw [Node.operands_of_merge hkind] at hop
        cases hop
      · exact (h.after_next s k _ v hx (by simp [hkind])).mp hafter
  exact hreach _ le_rfl

/-- A value that is live in a block is live after the instruction of the block that computes it, or
at the start of the block if there is none. -/
theorem after_or_start (h : fn.LiveEquations before after) {b : Int} {front rest : List Instr}
    (hcode : fn.codeOf b = front ++ rest) (hfront : ∀ x ∈ front, x.kind ≠ .terminator)
    (hlive : before ⟨b, front.length⟩ (.instr fn.id i)) :
    (∃ p x, fn.at? p = some x ∧ x.id = i ∧ after p (.instr fn.id i)) ∨
      before ⟨b, 0⟩ (.instr fn.id i) ∧ ∀ x ∈ front, x.id ≠ i := by
  induction front using List.reverseRecOn generalizing rest with
  | nil => exact .inr ⟨hlive, by simp⟩
  | append_singleton front y ih =>
    have hy : fn.at? ⟨b, front.length⟩ = some y := by simp [at?_eq_codeOf, hcode]
    have hafter : after ⟨b, front.length⟩ (.instr fn.id i) := by
      apply (h.after_next b _ y _ hy (hfront y (by simp))).mpr
      simpa using hlive
    by_cases hi : y.id = i
    · exact .inl ⟨_, y, hy, hi, hafter⟩
    · have hdef : ¬ fn.Defines ⟨b, front.length⟩ (.instr fn.id i) := by
        intro ⟨z, hz, _, hiz⟩
        obtain rfl := Option.some.inj (hy.symm.trans hz)
        exact hi (Value.instr.inj hiz).2.symm
      have hcode' : fn.codeOf b = front ++ y :: rest := by simp [hcode]
      have hfront' : ∀ x ∈ front, x.kind ≠ .terminator := fun x hx =>
        hfront x (List.mem_append_left _ hx)
      have hlive' := (h.before_iff _ y _ hy).mpr (.inr ⟨hafter, hdef⟩)
      rcases ih hcode' hfront' hlive' with hdone | ⟨hstart, hnone⟩
      · exact .inl hdone
      · refine .inr ⟨hstart, fun x hx => ?_⟩
        rcases List.mem_append.mp hx with hx | hx
        · exact hnone x hx
        · rwa [List.mem_singleton.mp hx]

/-- A value that is live behind a way from the entry on which its instruction is run is live after
this instruction. The induction is on the way, block by block. -/
theorem after_of_leads (h : fn.LiveEquations before after) (hw : fn.WellFormed) {way : List Int}
    {b : Int} (hway : fn.Leads way b) {front rest : List Instr} (hcode : fn.codeOf b = front ++ rest)
    (hfront : ∀ x ∈ front, x.kind ≠ .terminator)
    (hlive : before ⟨b, front.length⟩ (.instr fn.id i)) {d : Instr}
    (hd : d ∈ fn.executed way ++ front) (hid : d.id = i) (hdk : d.kind ≠ .terminator) :
    ∃ p x, fn.at? p = some x ∧ x.id = i ∧ after p (.instr fn.id i) := by
  induction hway generalizing front rest with
  | entry =>
    rcases h.after_or_start hcode hfront hlive with hdone | ⟨-, hnone⟩
    · exact hdone
    · exact absurd hid (hnone d (by simpa [executed] using hd))
  | @step way b s _ hs ih =>
    rcases h.after_or_start hcode hfront hlive with hdone | ⟨hstart, hnone⟩
    · exact hdone
    · -- the block computes nothing before this place, so the value was live when it was entered
      obtain ⟨block, front', last, hb, hcode', hlast, hfront', htarget, hat⟩ := hw.exists_end hs
      have hcodeOf : fn.codeOf b = front' ++ [last] := (codeOf_eq hb).trans hcode'
      obtain ⟨target, htb⟩ := Option.isSome_iff_exists.mp
        (hasBlock_iff.mp (hw.targets block (mem_blocks hb) s (by simpa [succ, hb] using hs)))
      have hafter : after ⟨b, front'.length⟩ (.instr fn.id i) :=
        (h.after_exit _ last _ hat hlast).mpr
          ⟨s, htarget, .inl ⟨target, htb, h.before_of_start htb hstart⟩⟩
      apply ih hcodeOf hfront'
      · exact (h.before_iff _ last _ hat).mpr (.inr ⟨hafter, not_defines_of_terminator hat hlast⟩)
      · rcases List.mem_append.mp hd with hd | hd
        · exact mem_executed_front hcodeOf hlast hd hdk
        · exact absurd hid (hnone d hd)

end LiveEquations

theorem Strict.after_of_use (hs : fn.Strict) (hw : fn.WellFormed) (hc : fn.Consistent)
    {before after : Place → Value → Prop} (h : fn.LiveEquations before after) {q : Place} {y : Instr}
    (hy : fn.at? q = some y) (hk : y.kind ≠ .terminator) {x : Instr} (hx : x ∈ fn.code)
    (hv : Value.instr fn.id y.id ∈ x.node.uses) : after q (.instr fn.id y.id) := by
  have hdef : ∀ d ∈ fn.code, d.id = y.id → d.kind ≠ .terminator := by
    intro d hd hid
    rwa [hc.eq_of_mem_code hd (mem_code_of_at? hy) hid]
  obtain ⟨p, z, hz, hid, hafter⟩ :
      ∃ p z, fn.at? p = some z ∧ z.id = y.id ∧ after p (.instr fn.id y.id) := by
    rcases Node.mem_uses_iff.mp hv with hop | ⟨p, he⟩
    · obtain ⟨⟨b, k⟩, hat⟩ := exists_at?_of_mem_code hx
      obtain ⟨block, hb, -⟩ := at?_eq_some_iff.mp hat
      obtain ⟨way, hway⟩ := hs.reached b (hasBlock_iff.mpr (by simp [hb]))
      have hlive := (h.before_iff _ x _ hat).mpr (.inl ⟨hop, rfl⟩)
      rw [at?_eq_codeOf] at hat
      obtain ⟨d, hd, hid⟩ := hs.operands b k x y.id hat hop way hway
      have hdcode : d ∈ fn.code := by
        rcases List.mem_append.mp hd with hd | hd
        · exact mem_code_of_mem_executed hd
        · exact mem_code_of_mem_codeOf (List.mem_of_mem_take hd)
      have hlen := List.length_take_of_le (List.getElem?_eq_some_iff.mp hat).1.le
      apply h.after_of_leads hw hway (List.take_append_drop k _).symm _ _ hd hid (hdef d hdcode hid)
      · intro z hz
        exact hw.not_terminator_of_mem_take hat hz
      · rwa [hlen]
    · obtain ⟨block, front, last, hb, hcode, hlast, hfront, hread⟩ := hw.exists_edgeReads hx he
      obtain ⟨way, hway⟩ := hs.reached p (hasBlock_iff.mpr (by simp [hb]))
      obtain ⟨d, hd, hid⟩ := hs.edges x hx p y.id he way hway
      obtain ⟨t, ht, htk⟩ := hread.exists_terminator
      have hcodeOf : fn.codeOf p = front ++ [last] := (codeOf_eq hb).trans hcode
      have hdk := hdef d (mem_code_of_mem_executed hd) hid
      apply h.after_of_leads hw hway hcodeOf hfront _ (mem_executed_front hcodeOf hlast hd hdk) hid hdk
      apply (h.before_iff _ t _ ht).mpr
      exact .inr ⟨h.after_of_edgeReads rfl hread, not_defines_of_terminator ht htk⟩
  rwa [hc.place_eq hz hy hid] at hafter

/-- In a strict function an instruction is dead at its own place if and only if it is dead in the
whole function. -/
theorem Strict.deadInstrs_local (hs : fn.Strict) (hw : fn.WellFormed) (hc : fn.Consistent) :
    fn.liveness.deadInstrs fn true = fn.unused := by
  have hall := blockIds_subset_visitOrder fn
  have hlocal : ∀ x ∈ fn.code, x.kind ≠ .terminator →
      (fn.liveness.liveAt x.id (x.value fn.id) = true ↔ x.value fn.id ∈ fn.liveness.support) := by
    intro x hx hk
    obtain ⟨p, hp⟩ := exists_at?_of_mem_code hx
    obtain ⟨s, hsides, hfind⟩ := hc.find?_liveness hp
    simp only [Liveness.liveAt, hfind, decide_eq_true_eq]
    constructor
    · intro hlive
      exact Liveness.mem_support.mpr ⟨_, List.mem_of_find?_eq_some hfind, .inr hlive⟩
    · intro hlive
      obtain ⟨-, user, huser, huse⟩ := hw.mem_support.mp hlive
      obtain ⟨t, ht, hmem⟩ := hs.after_of_use hw hc (liveEquations_settled hall) hp hk huser huse
      rwa [Option.some.inj (hsides.symm.trans ht)]
  simp only [unused, Liveness.deadInstrs, ↓reduceIte, Bool.false_eq_true]
  apply congrArg (List.map Instr.id)
  apply List.filter_congr
  intro x hx
  by_cases hk : x.kind = .terminator
  · simp [hk]
  · simp [hk, ← hlocal x hx hk]

end Func
end DeadCode
