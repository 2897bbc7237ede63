import DeadCode.Proofs.Elimination.LocalDeadness
import DeadCode.Proofs.Elimination.Meaning

/-! # Liveness after a removal

After a removal, an instruction that is left stands behind those in front of it that are left.
Control still goes where it went before: it passes over the places of removed instructions, none of
which defines a value that is still read. So a path that reads a value after the removal was there
before it, and a path that is lost has lost its reader.
-/
namespace DeadCode.Func
variable {fn : Func} {ins : List Int} {p q : Place} {x : Instr} {v : Value}

/-- The place that an instruction has after the removal: its index counts only the instructions in
front of it that are left. -/
def shrunk (fn : Func) (ins : List Int) (p : Place) : Place :=
  ⟨p.block, (((fn.codeOf p.block).take p.index).filter (·.id ∉ ins)).length⟩

theorem at?_shrunk (hx : fn.at? p = some x) (hstay : x.id ∉ ins) :
    (fn.without ins).at? (fn.shrunk ins p) = some x := by
  obtain ⟨b, k⟩ := p
  rw [at?_eq_codeOf] at hx
  obtain ⟨hlt, hk⟩ := List.getElem?_eq_some_iff.mp hx
  have hsplit : fn.codeOf b = (fn.codeOf b).take k ++ x :: (fn.codeOf b).drop (k + 1) := by
    rw [← hk, ← List.drop_eq_getElem_cons hlt, List.take_append_drop]
  have hfilter : (fn.codeOf b).filter (·.id ∉ ins) = ((fn.codeOf b).take k).filter (·.id ∉ ins) ++
      x :: ((fn.codeOf b).drop (k + 1)).filter (·.id ∉ ins) := by
    conv_lhs => rw [hsplit]
    rw [List.filter_append, List.filter_cons_of_pos (by simpa using hstay)]
  simp only [shrunk, at?_eq_codeOf, codeOf_without, hfilter, List.getElem?_append_right le_rfl,
    Nat.sub_self, List.getElem?_cons_zero]

theorem shrunk_next {b : Int} {k : Nat} (hx : fn.at? ⟨b, k⟩ = some x) :
    fn.shrunk ins ⟨b, k + 1⟩ =
      if x.id ∈ ins then fn.shrunk ins ⟨b, k⟩ else ⟨b, (fn.shrunk ins ⟨b, k⟩).index + 1⟩ := by
  rw [at?_eq_codeOf] at hx
  simp only [shrunk, List.take_add_one, hx, Option.toList_some, List.filter_append]
  by_cases hi : x.id ∈ ins
  · simp [hi]
  · simp [hi]

theorem WellFormed.shrunk_entry (hw : fn.WellFormed) {s : Int} {block : BasicBlock}
    (hb : fn.block? s = some block) :
    fn.shrunk ins ⟨s, block.merges.length⟩ = ⟨s, (block.without ins).merges.length⟩ := by
  have htake : block.code.take block.merges.length = block.merges := by
    conv_lhs => rw [← block.merges_append_body, List.take_left]
  rw [(Removable.merges_without hw (mem_blocks hb)).1]
  simp only [shrunk, codeOf_eq hb, htake]

theorem WellFormed.exists_next (hw : fn.WellFormed) {b : Int} {k : Nat}
    (hx : fn.at? ⟨b, k⟩ = some x) (hk : x.kind ≠ .terminator) : ∃ y, fn.at? ⟨b, k + 1⟩ = some y := by
  obtain ⟨block, hb, hx⟩ := at?_eq_some_iff.mp hx
  obtain ⟨front, last, hcode, hlast, -⟩ := hw.ended block (mem_blocks hb)
  have hlt : k + 1 < block.code.length := by
    obtain ⟨hlt, hget⟩ := List.getElem?_eq_some_iff.mp hx
    by_contra hge
    obtain rfl : k = front.length := by
      rw [hcode, List.length_append, List.length_singleton] at hlt hge
      dsimp only at hlt
      omega
    obtain rfl : last = x := by simpa [hcode] using hx
    exact hk hlast
  exact ⟨_, at?_eq_some_iff.mpr ⟨block, hb, List.getElem?_eq_getElem hlt⟩⟩

theorem WellFormed.exists_at?_of_flows (hw : fn.WellFormed) (h : fn.Flows p q) :
    ∃ y, fn.at? q = some y := by
  cases h with
  | next _ _ hy => exact ⟨_, hy⟩
  | jump _ _ _ hb =>
    obtain ⟨y, hy⟩ := hw.exists_head (mem_blocks hb)
    exact ⟨y, at?_eq_some_iff.mpr ⟨_, hb, hy⟩⟩

theorem WellFormed.exists_flows_of_shrunk (hw : fn.WellFormed) (hx : fn.at? p = some x)
    (hstay : x.id ∉ ins) (h : (fn.without ins).Flows (fn.shrunk ins p) q) :
    ∃ p', fn.Flows p p' ∧ fn.shrunk ins p' = q := by
  have hat := at?_shrunk hx hstay
  obtain ⟨c, j⟩ := p
  generalize hr : fn.shrunk ins ⟨c, j⟩ = r at h hat
  cases h with
  | @next b k y _ hy hk _ =>
    obtain rfl := Option.some.inj (hat.symm.trans hy)
    obtain ⟨_, hnext⟩ := hw.exists_next hx hk
    obtain rfl : c = b := congrArg Place.block hr
    refine ⟨⟨c, j + 1⟩, .next hx hk hnext, ?_⟩
    rw [shrunk_next hx, if_neg hstay, hr]
  | @jump b s k y target hy hk hs hb =>
    obtain rfl := Option.some.inj (hat.symm.trans hy)
    rw [block?_without] at hb
    obtain ⟨block, hblock, rfl⟩ := Option.map_eq_some_iff.mp hb
    exact ⟨_, .jump hx hk hs hblock, hw.shrunk_entry hblock⟩

theorem WellFormed.flows_shrunk (hw : fn.WellFormed) (hx : fn.at? p = some x) (hstay : x.id ∉ ins)
    (h : fn.Flows p q) {z : Instr} (hz : (fn.without ins).at? (fn.shrunk ins q) = some z) :
    (fn.without ins).Flows (fn.shrunk ins p) (fn.shrunk ins q) := by
  have hat := at?_shrunk hx hstay
  cases h with
  | next hy hk _ =>
    obtain rfl := Option.some.inj (hx.symm.trans hy)
    rw [shrunk_next hx, if_neg hstay] at hz ⊢
    exact .next hat hk hz
  | jump hy hk hs hb =>
    obtain rfl := Option.some.inj (hx.symm.trans hy)
    rw [hw.shrunk_entry hb]
    exact .jump hat hk hs (by rw [block?_without, hb]; rfl)

theorem WellFormed.edgeReads_of_shrunk (hw : fn.WellFormed) (hx : fn.at? p = some x)
    (hstay : x.id ∉ ins) (h : (fn.without ins).EdgeReads (fn.shrunk ins p) v) : fn.EdgeReads p v := by
  obtain ⟨t, s, target, ht, hk, hs, hb, m, hm, he⟩ := h
  obtain rfl := Option.some.inj ((at?_shrunk hx hstay).symm.trans ht)
  rw [block?_without] at hb
  obtain ⟨block, hblock, rfl⟩ := Option.map_eq_some_iff.mp hb
  rw [(Removable.merges_without hw (mem_blocks hblock)).1] at hm
  exact ⟨x, s, block, hx, hk, hs, hblock, m, (List.mem_filter.mp hm).1, he⟩

theorem defines_shrunk_iff (hx : fn.at? p = some x) (hstay : x.id ∉ ins) :
    (fn.without ins).Defines (fn.shrunk ins p) v ↔ fn.Defines p v := by
  rw [defines_iff hx, defines_iff (at?_shrunk hx hstay)]
  rfl

def UsedAmong (fn : Func) (ins : List Int) (v : Value) : Prop :=
  ∃ x ∈ fn.code, x.id ∈ ins ∧ v ∈ x.node.uses

namespace Removable
variable (hr : fn.Removable ins) (hc : fn.Consistent) (hw : fn.WellFormed)
include hr hc

theorem not_terminator (hx : fn.at? p = some x) (hi : x.id ∈ ins) : x.kind ≠ .terminator :=
  fun hk => hr.id_notMem hc (mem_code_of_at? hx) hk hi

theorem shrunk_eq_of_flows (hx : fn.at? p = some x) (hi : x.id ∈ ins) (h : fn.Flows p q) :
    fn.shrunk ins q = fn.shrunk ins p := by
  have hnot := hr.not_terminator hc hx hi
  cases h with
  | next => rw [shrunk_next hx, if_pos hi]
  | jump hy hk =>
    obtain rfl := Option.some.inj (hx.symm.trans hy)
    exact absurd hk hnot

theorem edgeReads_shrunk (hw : fn.WellFormed) (hkept : ¬ fn.UsedAmong ins v)
    (h : fn.EdgeReads p v) : (fn.without ins).EdgeReads (fn.shrunk ins p) v := by
  obtain ⟨t, s, block, ht, hk, hs, hb, m, hm, he⟩ := h
  have hstay : t.id ∉ ins := fun hi => hr.not_terminator hc ht hi hk
  refine ⟨t, s, block.without ins, at?_shrunk ht hstay, hk, hs, by rw [block?_without, hb]; rfl, m, ?_, he⟩
  rw [(merges_without hw (mem_blocks hb)).1]
  refine List.mem_filter.mpr ⟨hm, ?_⟩
  have hmem := mem_code hb (BasicBlock.mem_code_of_mem_merges hm)
  simpa using fun hi => hkept ⟨m, hmem, hi, Node.mem_uses_iff.mpr (.inr ⟨_, he⟩)⟩

include hw

/-- From any place control comes to an instruction that stays, passing removed ones only. -/
theorem exists_survivor {b : Int} {k : Nat} (hx : fn.at? ⟨b, k⟩ = some x) :
    ∃ q y, fn.at? q = some y ∧ y.id ∉ ins ∧ fn.shrunk ins q = fn.shrunk ins ⟨b, k⟩ ∧
      ∀ v, (∀ i ∈ ins, v ≠ .instr fn.id i) → fn.Needs v q → fn.Needs v ⟨b, k⟩ := by
  induction hm : (fn.codeOf b).length - k generalizing k x with
  | zero =>
    rw [at?_eq_codeOf, List.getElem?_eq_none (by omega)] at hx
    cases hx
  | succ m ih =>
    by_cases hi : x.id ∈ ins
    · have hk := hr.not_terminator hc hx hi
      obtain ⟨y, hy⟩ := hw.exists_next hx hk
      obtain ⟨q, z, hq, hstay, hshrunk, hback⟩ := ih hy (by omega)
      refine ⟨q, z, hq, hstay, by rw [hshrunk, shrunk_next hx, if_pos hi], fun v hv hn => ?_⟩
      refine .later (.next hx hk hy) ?_ (hback v hv hn)
      rw [defines_iff hx]
      exact fun hdef => hv _ hi hdef.2
    · exact ⟨⟨b, k⟩, x, hx, hi, rfl, fun _ _ hn => hn⟩

/-- A path in the function after the removal comes from a path before it. -/
theorem needs_of_shrunk (hv : ∀ i ∈ ins, v ≠ .instr fn.id i) (h : (fn.without ins).Needs v q)
    (hx : fn.at? p = some x) (hp : fn.shrunk ins p = q) : fn.Needs v p := by
  induction h generalizing p x with
  | here hreads =>
    obtain ⟨s, y, hy, hstay, hs, hback⟩ := hr.exists_survivor hc hw hx
    subst hp
    rw [← hs] at hreads
    refine hback v hv (.here ?_)
    rcases hreads with ⟨z, hz, hop⟩ | hedge
    · obtain rfl := Option.some.inj ((at?_shrunk hy hstay).symm.trans hz)
      exact .inl ⟨y, hy, hop⟩
    · exact .inr (hw.edgeReads_of_shrunk hy hstay hedge)
  | later hflow hdef _ ih =>
    obtain ⟨s, y, hy, hstay, hs, hback⟩ := hr.exists_survivor hc hw hx
    subst hp
    rw [← hs] at hflow hdef
    obtain ⟨t, hflow, ht⟩ := hw.exists_flows_of_shrunk hy hstay hflow
    obtain ⟨z, hz⟩ := hw.exists_at?_of_flows hflow
    rw [defines_shrunk_iff hy hstay] at hdef
    exact hback v hv (.later hflow hdef (ih hz ht))

/-- A path whose reader is not removed is still there after the removal. -/
theorem needs_shrunk (hkept : ¬ fn.UsedAmong ins v) (h : fn.Needs v p) :
    (fn.without ins).Needs v (fn.shrunk ins p) := by
  induction h with
  | here hreads =>
    refine .here ?_
    rcases hreads with ⟨x, hx, hop⟩ | hedge
    · have huse : v ∈ x.node.uses := Node.mem_uses_iff.mpr (.inl hop)
      exact .inl ⟨x, at?_shrunk hx fun hi => hkept ⟨x, mem_code_of_at? hx, hi, huse⟩, hop⟩
    · exact .inr (hr.edgeReads_shrunk hc hw hkept hedge)
  | @later p q hflow hdef _ ih =>
    obtain ⟨x, hx⟩ := hflow.exists_at?
    by_cases hi : x.id ∈ ins
    · rwa [← hr.shrunk_eq_of_flows hc hx hi hflow]
    · obtain ⟨z, hz⟩ := ih.exists_at?
      rw [← defines_shrunk_iff hx hi] at hdef
      exact .later (hw.flows_shrunk hx hi hflow hz) hdef ih

theorem needsAfter_of_shrunk (hv : ∀ i ∈ ins, v ≠ .instr fn.id i) (hx : fn.at? p = some x)
    (hstay : x.id ∉ ins) (h : (fn.without ins).NeedsAfter v (fn.shrunk ins p)) :
    fn.NeedsAfter v p := by
  rcases h with ⟨q, hflow, hq⟩ | hedge
  · obtain ⟨t, hflow, ht⟩ := hw.exists_flows_of_shrunk hx hstay hflow
    obtain ⟨z, hz⟩ := hw.exists_at?_of_flows hflow
    exact .inl ⟨t, hflow, hr.needs_of_shrunk hc hw hv hq hz ht⟩
  · exact .inr (hw.edgeReads_of_shrunk hx hstay hedge)

theorem needsAfter_shrunk (hkept : ¬ fn.UsedAmong ins v) (hx : fn.at? p = some x)
    (hstay : x.id ∉ ins) (h : fn.NeedsAfter v p) :
    (fn.without ins).NeedsAfter v (fn.shrunk ins p) := by
  rcases h with ⟨q, hflow, hq⟩ | hedge
  · have hn := hr.needs_shrunk hc hw hkept hq
    obtain ⟨z, hz⟩ := hn.exists_at?
    exact .inl ⟨_, hw.flows_shrunk hx hstay hflow hz, hn⟩
  · exact .inr (hr.edgeReads_shrunk hc hw hkept hedge)

theorem shrinks (hx : fn.at? p = some x) (hstay : x.id ∉ ins) :
    ((fn.without ins).Needs v (fn.shrunk ins p) → fn.Needs v p) ∧
      ((fn.without ins).NeedsAfter v (fn.shrunk ins p) → fn.NeedsAfter v p) ∧
      (¬ fn.UsedAmong ins v → fn.Needs v p → (fn.without ins).Needs v (fn.shrunk ins p)) ∧
      (¬ fn.UsedAmong ins v → fn.NeedsAfter v p →
        (fn.without ins).NeedsAfter v (fn.shrunk ins p)) := by
  -- what is read after the removal is read by an instruction that stays
  have hread : (∃ y ∈ (fn.without ins).code, v ∈ y.node.uses) → ∀ i ∈ ins, v ≠ .instr fn.id i := by
    rintro ⟨y, hy, huse⟩ i hi rfl
    obtain ⟨hy, hystay⟩ := mem_code_without.mp hy
    exact hr.unused y hy hystay i hi huse
  refine ⟨fun h => ?_, fun h => ?_, fun hkept h => ?_, fun hkept h => ?_⟩
  · exact hr.needs_of_shrunk hc hw (hread h.exists_user) h hx rfl
  · exact hr.needsAfter_of_shrunk hc hw (hread h.exists_user) hx hstay h
  · exact hr.needs_shrunk hc hw hkept h
  · exact hr.needsAfter_shrunk hc hw hkept hx hstay h

end Removable

theorem Consistent.exists_of_liveness (h : fn.Consistent) (hx : fn.at? p = some x) :
    ∃ e, fn.liveness.of fn x.id = .ok e ∧
      (∀ v, v ∈ e.sides.before ↔ v.tracked = true ∧ fn.Needs v p) ∧
      ∀ v, v ∈ e.sides.after ↔ v.tracked = true ∧ fn.NeedsAfter v p := by
  have hall := blockIds_subset_visitOrder fn
  obtain ⟨s, hs, hfind⟩ := h.find?_liveness hx
  refine ⟨_, of_liveness hfind, fun v => ?_, fun v => ?_⟩
  · rw [← liveBefore_settled_iff hall]
    simp [Facts.LiveBefore, hs]
  · rw [← liveAfter_settled_iff hall]
    simp [Facts.LiveAfter, hs]

/-- A successful removal from a function that the verifier accepts makes no value live. At every
instruction that is left, the new live sets are contained in the old ones, and every value that they
have lost was used by a removed instruction. -/
theorem live_removeAll_subset {rest : Func} (hc : fn.Consistent) (hv : fn.malformed? = none)
    (h : fn.removeAll ins = .ok rest) :
    ∃ lv lv', fn.analyze = .ok lv ∧ rest.analyze = .ok lv' ∧
      ∀ i, rest.alive i = true → ∃ e e', lv.of fn i = .ok e ∧ lv'.of rest i = .ok e' ∧
        (∀ v, v ∈ e'.sides.before → v ∈ e.sides.before) ∧
        (∀ v, v ∈ e'.sides.after → v ∈ e.sides.after) ∧
        ∀ v, v ∈ e.sides.before ∧ v ∉ e'.sides.before ∨ v ∈ e.sides.after ∧ v ∉ e'.sides.after →
          fn.UsedAmong ins v := by
  have hw := malformed?_eq_none_iff.mp hv
  obtain ⟨hr, rfl⟩ := (removeAll_eq_ok_iff hc).mp h
  split
  · refine ⟨fn.liveness, fn.liveness, analyze_eq hv, analyze_eq hv, fun i hi => ?_⟩
    obtain ⟨x, hx, rfl⟩ := hc.alive_iff.mp hi
    obtain ⟨p, hp⟩ := exists_at?_of_mem_code hx
    obtain ⟨e, he, -⟩ := hc.exists_of_liveness hp
    refine ⟨e, e, he, he, fun _ h => h, fun _ h => h, ?_⟩
    rintro v (⟨hin, hout⟩ | ⟨hin, hout⟩)
    · exact absurd hin hout
    · exact absurd hin hout
  · have hc' := hr.consistent hc
    have hv' := (hr.wellFormed hc hw).malformed?_eq_none
    refine ⟨fn.liveness, (fn.without ins).liveness, analyze_eq hv, analyze_eq hv',
      fun i hi => ?_⟩
    obtain ⟨x, hx, rfl⟩ := hc'.alive_iff.mp hi
    obtain ⟨hx, hstay⟩ := mem_code_without.mp hx
    obtain ⟨p, hp⟩ := exists_at?_of_mem_code hx
    obtain ⟨e, he, hbefore, hafter⟩ := hc.exists_of_liveness hp
    obtain ⟨e', he', hbefore', hafter'⟩ := hc'.exists_of_liveness (at?_shrunk hp hstay)
    have hshrinks := fun v => hr.shrinks hc hw (v := v) hp hstay
    refine ⟨e, e', he, he', fun v hlive => ?_, fun v hlive => ?_, fun v hlost => ?_⟩
    · rw [hbefore'] at hlive
      rw [hbefore]
      exact hlive.imp_right (hshrinks v).1
    · rw [hafter'] at hlive
      rw [hafter]
      exact hlive.imp_right (hshrinks v).2.1
    · rw [hbefore, hbefore', hafter, hafter'] at hlost
      by_contra hkept
      rcases hlost with ⟨hlive, hnot⟩ | ⟨hlive, hnot⟩
      · exact hnot (hlive.imp_right ((hshrinks v).2.2.1 hkept))
      · exact hnot (hlive.imp_right ((hshrinks v).2.2.2 hkept))

/-- The loop loses its second merge with all that reads it, and the square of the counter. The
counter itself stays live around the loop. -/
theorem live_removeAll_countdown :
    countdown.Consistent ∧ countdown.malformed? = none ∧
      countdown.removeAll [4, 2, 6, 5] = .ok (countdown.without [4, 2, 6, 5]) ∧
      ∃ lv lv' e e', countdown.analyze = .ok lv ∧
        (countdown.without [4, 2, 6, 5]).analyze = .ok lv' ∧ lv.of countdown 3 = .ok e ∧
        lv'.of (countdown.without [4, 2, 6, 5]) 3 = .ok e' ∧
        (.instr 0 2 ∈ e.sides.after ∧ .instr 0 2 ∉ e'.sides.after) ∧
        countdown.UsedAmong [4, 2, 6, 5] (.instr 0 2) ∧
        (.instr 0 1 ∈ e'.sides.after ∧ .instr 0 1 ∈ e.sides.after) := by
  have h : countdown.removeAll [4, 2, 6, 5] = .ok (countdown.without [4, 2, 6, 5]) := by decide
  obtain ⟨lv, lv', hlv, hlv', hall⟩ := live_removeAll_subset consistent_countdown
    malformed?_countdown h
  obtain ⟨e, e', he, he', -, hafter, hlost⟩ := hall 3 (by decide)
  have hself : countdown.analyze = .ok countdown.liveness := analyze_eq malformed?_countdown
  have hself' : (countdown.without [4, 2, 6, 5]).analyze =
      .ok (countdown.without [4, 2, 6, 5]).liveness := analyze_eq (by decide)
  obtain rfl := Except.ok.inj (hlv.symm.trans hself)
  obtain rfl := Except.ok.inj (hlv'.symm.trans hself')
  have hlive : (countdown.liveness.of countdown 3).map
      (fun e => decide (.instr 0 2 ∈ e.sides.after)) = .ok true := by
    decide
  have hgone : ((countdown.without [4, 2, 6, 5]).liveness.of (countdown.without [4, 2, 6, 5]) 3).map
      (fun e => decide (.instr 0 2 ∉ e.sides.after ∧ .instr 0 1 ∈ e.sides.after)) = .ok true := by
    decide
  rw [he] at hlive
  rw [he'] at hgone
  have hold := of_decide_eq_true (Except.ok.inj hlive)
  obtain ⟨hnew, hstays⟩ := of_decide_eq_true (Except.ok.inj hgone)
  exact ⟨consistent_countdown, malformed?_countdown, h, _, _, e, e', hself, hself', he, he',
    ⟨hold, hnew⟩, hlost _ (.inr ⟨hold, hnew⟩), hstays, hafter _ hstays⟩

end DeadCode.Func
