import DeadCode.Elimination.Batch
import DeadCode.Proofs.Elimination.Rounds

/-! # A batch in any order

The functions of a batch share only the trace sink and the totals. So in whatever order they are
worked through, each function ends as it would if it were eliminated alone, and what is written and
counted is the same up to order. If the verifier rejects a function, the batch has no results, but
the other functions are not affected. Of several rejected functions the one that was worked on first
is reported.
-/
namespace DeadCode

namespace Sink
variable {s : Sink} {n : Nat}

def Takes (s : Sink) (n : Nat) : Prop := ∀ room, s.room = some room → n ≤ room

def taking (s : Sink) (texts : List String) : Sink :=
  { s with room := s.room.map (· - texts.length), writes := s.writes ++ texts }

@[simp] theorem taking_nil (s : Sink) : s.taking [] = s := by simp [taking]

theorem taking_taking (s : Sink) (first more : List String) :
    (s.taking first).taking more = s.taking (first ++ more) := by
  have hroom : (fun room => room - more.length) ∘ (fun room => room - first.length) =
      fun room => room - (first ++ more).length := by
    funext room
    simp only [Function.comp_apply, List.length_append]
    omega
  simp [taking, hroom]

theorem write_eq (h : s.Takes 1) (text : String) : s.write text = some (s.taking [text]) := by
  cases hroom : s.room with
  | none => simp [write, taking, hroom]
  | some room =>
    cases room with
    | zero => exact absurd (h 0 hroom) (by omega)
    | succ room => simp [write, taking, hroom]

theorem Takes.taking {texts : List String} (h : s.Takes (texts.length + n)) :
    (s.taking texts).Takes n := by
  intro room hroom
  obtain ⟨before, hbefore, rfl⟩ := Option.map_eq_some_iff.mp hroom
  have hle := h before hbefore
  omega

theorem Takes.mono {m : Nat} (h : s.Takes n) (hm : m ≤ n) : s.Takes m :=
  fun room hroom => hm.trans (h room hroom)

end Sink

namespace Tally

theorem add_right_comm (s t u : Tally) : (s.add t).add u = (s.add u).add t := by
  simp only [add, Tally.mk.injEq]
  omega

end Tally

namespace Func
variable {fn : Func} {o : Options}

def traceTexts (fn : Func) : List String :=
  if fn.malformed? = none then [fn.liveness.traceText fn] else []

theorem length_traceTexts_le (fn : Func) : fn.traceTexts.length ≤ 1 := by
  unfold traceTexts
  split
  · exact Nat.le_refl 1
  · exact Nat.zero_le 1

theorem writeTrace_eq {sink : Option Sink} (h : ∀ s ∈ sink, s.Takes 1) :
    fn.writeTrace sink = some (sink.map (·.taking [fn.liveness.traceText fn])) := by
  cases sink with
  | none => rfl
  | some s => simp [writeTrace, Sink.write_eq (h s rfl)]

/-- The sink of the trace affects nothing but the trace. -/
theorem eliminate_with_trace {sink : Option Sink} (ho : ∀ s ∈ o.trace, s.Takes 1)
    (hs : ∀ s ∈ sink, s.Takes 1) :
    fn.eliminate { o with trace := sink } =
      { fn.eliminate o with sink := sink.map (·.taking fn.traceTexts) } := by
  cases hm : fn.malformed? with
  | some m => simp [eliminate, hm, reject, traceTexts]
  | none => simp [eliminate, hm, writeTrace_eq ho, writeTrace_eq hs, traceTexts]

theorem ending_eliminate (hc : fn.Consistent) (hl : o.localDeadness = false)
    (ho : ∀ s ∈ o.trace, s.Takes 1) :
    (fn.eliminate o).ending =
      match fn.malformed? with
      | some m => .rejected (.malformed m)
      | none => .converged := by
  cases hm : fn.malformed? with
  | some m => simp [eliminate, hm, reject]
  | none =>
    have hfault : (fn.begun o).fault? = none := by
      rw [begun, hl]
      exact ((malformed?_eq_none_iff.mp hm).completes_course hc _ 1 (Nat.lt_succ_self _)).unstopped
    exact (eliminate_of_begun hm (by simp [writeTrace_eq ho]) hfault).2.2

def rejection? (fn : Func) : Option Failure :=
  fn.malformed?.map fun m => .rejected fn.name (.malformed m)

end Func

namespace Program
variable {p : Program} {f g : Nat}

theorem func?_set_self {old : Func} (h : p.func? f = some old) (fn : Func) :
    (p.set f fn).func? f = some fn :=
  List.getElem?_set_self (List.getElem?_eq_some_iff.mp h).1

theorem func?_set_of_ne (h : g ≠ f) (fn : Func) : (p.set f fn).func? g = p.func? g :=
  List.getElem?_set_ne h.symm

end Program

namespace Batch
variable {o : Options} {p : Program} {schedule first more : List (Nat × Nat)}
  {batch mid after : Batch}

def given (p : Program) (schedule : List (Nat × Nat)) : List Func :=
  schedule.filterMap fun task => p.func? task.2

/-- What working through a schedule makes of a batch, told by what `p` holds at first. -/
structure Does (o : Options) (p : Program) (schedule : List (Nat × Nat)) (batch after : Batch) :
    Prop where
  func_eq : ∀ task ∈ schedule, after.program.func? task.2 =
    (p.func? task.2).map fun fn => (fn.eliminate o).func
  func_frame : ∀ f, f ∉ schedule.map (·.2) → after.program.func? f = batch.program.func? f
  result_eq : ∀ task ∈ schedule, ∀ fn, p.func? task.2 = some fn → fn.malformed? = none →
    task.1 < batch.results.length → after.results[task.1]? = some (fn.eliminate o).result
  result_frame : ∀ i, i ∉ schedule.map (·.1) → after.results[i]? = batch.results[i]?
  length_eq : after.results.length = batch.results.length
  tally_eq : after.tally =
    ((given p schedule).map fun fn => (fn.eliminate o).tally).foldl Tally.add batch.tally
  sink_eq : after.sink = batch.sink.map (·.taking ((given p schedule).flatMap (·.traceTexts)))
  failure_eq : after.failure? = batch.failure?.or ((given p schedule).findSome? (·.rejection?))

namespace Does

theorem nil (o : Options) (p : Program) (batch : Batch) : Does o p [] batch batch := by
  constructor <;> simp [given]

/-- Schedules that share no function and no place can be joined. -/
theorem append (h : Does o p first batch mid) (h' : Does o p more mid after)
    (hfuncs : ((first ++ more).map (·.2)).Nodup) (hplaces : ((first ++ more).map (·.1)).Nodup) :
    Does o p (first ++ more) batch after := by
  rw [List.map_append, List.nodup_append] at hfuncs hplaces
  have hgiven : given p (first ++ more) = given p first ++ given p more := List.filterMap_append
  refine ⟨?_, ?_, ?_, ?_, ?_, ?_, ?_, ?_⟩
  · intro task ht
    rcases List.mem_append.mp ht with ht | ht
    · have hout : task.2 ∉ more.map (·.2) := fun hm =>
        hfuncs.2.2 _ (List.mem_map_of_mem ht) _ hm rfl
      rw [h'.func_frame _ hout]
      exact h.func_eq task ht
    · exact h'.func_eq task ht
  · intro f hf
    rw [List.map_append, List.mem_append, not_or] at hf
    rw [h'.func_frame f hf.2, h.func_frame f hf.1]
  · intro task ht fn hfn hv hlt
    rcases List.mem_append.mp ht with ht | ht
    · have hout : task.1 ∉ more.map (·.1) := fun hm =>
        hplaces.2.2 _ (List.mem_map_of_mem ht) _ hm rfl
      rw [h'.result_frame _ hout]
      exact h.result_eq task ht fn hfn hv hlt
    · exact h'.result_eq task ht fn hfn hv (h.length_eq ▸ hlt)
  · intro i hi
    rw [List.map_append, List.mem_append, not_or] at hi
    rw [h'.result_frame i hi.2, h.result_frame i hi.1]
  · rw [h'.length_eq, h.length_eq]
  · rw [h'.tally_eq, h.tally_eq, hgiven, List.map_append, List.foldl_append]
  · rw [h'.sink_eq, h.sink_eq, hgiven, List.flatMap_append, Option.map_map]
    congr 1
    funext sink
    exact sink.taking_taking _ _
  · rw [h'.failure_eq, h.failure_eq, hgiven, List.findSome?_append, Option.or_assoc]

end Does

theorem does_step {place f : Nat} {fn : Func} (hf : batch.program.func? f = some fn)
    (hp : p.func? f = some fn) (hc : fn.Consistent) (hl : o.localDeadness = false)
    (ho : ∀ s ∈ o.trace, s.Takes 1) (hs : ∀ s ∈ batch.sink, s.Takes 1) :
    Does o p [(place, f)] batch (batch.step o place f) := by
  have hgiven : given p [(place, f)] = [fn] := by simp [given, hp]
  have hend := Func.ending_eliminate hc hl ho
  rw [step, hf]
  dsimp only
  rw [Func.eliminate_with_trace ho hs]
  refine ⟨?_, ?_, ?_, ?_, ?_, ?_, ?_, ?_⟩
  · simp [hp, Program.func?_set_self hf]
  · intro g hg
    exact Program.func?_set_of_ne (by simpa using hg) _
  · simp only [List.mem_singleton]
    rintro task rfl fn' hfn' hv hlt
    obtain rfl := Option.some.inj (hp.symm.trans hfn')
    simp only [hend, hv]
    exact List.getElem?_set_self hlt
  · intro i hi
    dsimp only
    split
    · exact List.getElem?_set_ne (by simpa [eq_comm] using hi)
    · rfl
  · dsimp only
    split
    · exact List.length_set
    · rfl
  · simp [hgiven]
  · simp [hgiven]
  · cases hm : fn.malformed? with
    | none => simp [hgiven, hend, hm, failureOf, Func.rejection?]
    | some m => simp [hgiven, hend, hm, failureOf, Func.rejection?]

/-- By induction on the schedule: functions that come later have not been changed. -/
theorem does_run (hpending : ∀ task ∈ schedule, batch.program.func? task.2 = p.func? task.2)
    (hknown : ∀ task ∈ schedule, ∃ fn, p.func? task.2 = some fn ∧ fn.Consistent)
    (hfuncs : (schedule.map (·.2)).Nodup) (hplaces : (schedule.map (·.1)).Nodup)
    (hl : o.localDeadness = false) (ho : ∀ s ∈ o.trace, s.Takes schedule.length)
    (hs : ∀ s ∈ batch.sink, s.Takes schedule.length) :
    Does o p schedule batch (run o schedule batch) := by
  induction schedule generalizing batch with
  | nil => exact .nil o p batch
  | cons task rest ih =>
    obtain ⟨⟨fn, hfn, hc⟩, hknown'⟩ := List.forall_mem_cons.mp hknown
    obtain ⟨hf, hpending'⟩ := List.forall_mem_cons.mp hpending
    have hstep : Does o p [task] batch (batch.step o task.1 task.2) :=
      does_step (hf.trans hfn) hfn hc hl (fun s h => (ho s h).mono (by simp))
        fun s h => (hs s h).mono (by simp)
    have hfresh := (List.nodup_cons.mp hfuncs).1
    refine hstep.append (ih ?_ hknown' (List.nodup_cons.mp hfuncs).2 (List.nodup_cons.mp hplaces).2
      (fun s h => (ho s h).mono (by simp)) ?_) hfuncs hplaces
    · intro later hlater
      have hne : later.2 ∉ [task].map (·.2) := by
        intro h
        rw [List.map_singleton, List.mem_singleton] at h
        exact hfresh (List.mem_map.mpr ⟨later, hlater, h⟩)
      rw [hstep.func_frame _ hne]
      exact hpending' later hlater
    · intro s h
      rw [hstep.sink_eq] at h
      obtain ⟨before, hbefore, rfl⟩ := Option.map_eq_some_iff.mp h
      have hone : ((given p [task]).flatMap (·.traceTexts)).length ≤ 1 := by
        simpa [given, hfn] using fn.length_traceTexts_le
      apply Sink.Takes.taking
      apply (hs before hbefore).mono
      rw [List.length_cons]
      omega

def tasks (fs : List Nat) : List (Nat × Nat) := fs.zipIdx.map fun (f, place) => (place, f)

theorem mem_tasks {fs : List Nat} {place f : Nat} : (place, f) ∈ tasks fs ↔ fs[place]? = some f := by
  simp [tasks, List.mem_zipIdx_iff_getElem?]

theorem map_fst_tasks (fs : List Nat) : (tasks fs).map (·.1) = List.range fs.length := by
  simp [tasks, Function.comp_def, List.zipIdx_map_snd, List.range_eq_range']

theorem map_snd_tasks (fs : List Nat) : (tasks fs).map (·.2) = fs := by
  simp [tasks, Function.comp_def, List.zipIdx_map_fst]

theorem given_tasks (p : Program) (fs : List Nat) : given p (tasks fs) = fs.filterMap p.func? := by
  conv_rhs => rw [← map_snd_tasks fs]
  rw [List.filterMap_map]
  rfl

/-- An order in which tasks can get done if they are handed out in the order of the list and no more
than `workers` of them at a time: all but `workers - 1` of those before a task are done before it. -/
def InTurn (workers : Int) (schedule : List (Nat × Nat)) : Prop :=
  ∀ (k : Nat) task, schedule[k]? = some task → (task.1 : Int) < k + workers

theorem getElem?_tasks (fs : List Nat) (k : Nat) : (tasks fs)[k]? = fs[k]?.map fun f => (k, f) := by
  simp [tasks, List.getElem?_zipIdx, Function.comp_def]

/-- By induction on the position: what stands there is not higher, and what is lower has gone
before. -/
theorem place_of_inTurn_one (hplaces : (schedule.map (·.1)).Nodup) (h : InTurn 1 schedule)
    {k : Nat} {task : Nat × Nat} (hk : schedule[k]? = some task) : task.1 = k := by
  induction k using Nat.strongRecOn generalizing task with
  | ind k ih =>
    have hlen := (List.getElem?_eq_some_iff.mp hk).1
    have hle := h k task hk
    by_contra hne
    have hlt : task.1 < k := by omega
    have hsome := List.getElem?_eq_getElem (hlt.trans hlen)
    have hplace := ih task.1 hlt hsome
    have hsame : (schedule.map (·.1))[task.1]? = (schedule.map (·.1))[k]? := by
      rw [List.getElem?_map, List.getElem?_map, hsome, hk, Option.map_some, Option.map_some, hplace]
    exact hne ((List.getElem?_inj (by simpa using hlt.trans hlen) hplaces).mp hsame)

theorem inTurn_one_iff {fs : List Nat} (hs : schedule.Perm (tasks fs)) :
    InTurn 1 schedule ↔ schedule = tasks fs := by
  constructor
  · intro h
    have hplaces : (schedule.map (·.1)).Nodup := by
      rw [(hs.map _).nodup_iff, map_fst_tasks]
      exact List.nodup_range
    have hlen : schedule.length = fs.length := by simpa [tasks] using hs.length_eq
    apply List.ext_getElem?
    intro k
    cases hk : schedule[k]? with
    | none =>
      rw [List.getElem?_eq_none_iff] at hk
      rw [getElem?_tasks, List.getElem?_eq_none (by omega), Option.map_none]
    | some task =>
      have hplace := place_of_inTurn_one hplaces h hk
      have hmem : (task.1, task.2) ∈ tasks fs := hs.subset (List.mem_of_getElem? hk)
      rw [mem_tasks, hplace] at hmem
      rw [getElem?_tasks, hmem, Option.map_some, ← hplace]
  · rintro rfl k task hk
    rw [getElem?_tasks] at hk
    obtain ⟨f, -, rfl⟩ := Option.map_eq_some_iff.mp hk
    exact Int.lt_add_one_of_le (Int.le_refl _)

/-- Every function of the list has been treated as if it were the only one. `fns` holds the
functions as they were given. -/
structure Independent (p : Program) (o : Options) (fs : List Nat) (fns : List Func)
    (batch : Batch) : Prop where
  accepted : ∀ (i f : Nat) (fn : Func), fs[i]? = some f → fns[i]? = some fn → fn.malformed? = none →
    (fn.eliminate o).ending = .converged ∧
      batch.program.func? f = some (fn.eliminate o).func ∧
      batch.results[i]? = some (fn.eliminate o).result
  rejected : ∀ (i f : Nat) (fn : Func), fs[i]? = some f → fns[i]? = some fn → fn.malformed? ≠ none →
    batch.program.func? f = some fn
  others : ∀ f, f ∉ fs → batch.program.func? f = p.func? f
  ok_iff : ∀ results, batch.outcome = .ok results ↔
    (∀ fn ∈ fns, fn.malformed? = none) ∧ results = fns.map fun fn => (fn.eliminate o).result
  error_of : ∀ failure, batch.outcome = .error failure → ∃ fn ∈ fns, ∃ m,
    fn.malformed? = some m ∧ failure = .rejected fn.name (.malformed m)
  tally_eq : batch.tally = (fns.map fun fn => (fn.eliminate o).tally).foldl Tally.add .zero
  sink_eq : ∃ texts, batch.sink = o.trace.map (·.taking texts) ∧
    texts.Perm (fns.flatMap (·.traceTexts))

theorem outcome_eq_ok_iff {results : List Result} :
    batch.outcome = .ok results ↔ batch.failure? = none ∧ batch.results = results := by
  unfold outcome
  cases batch.failure? with
  | none => simp
  | some failure => simp

theorem outcome_eq_error_iff {failure : Failure} :
    batch.outcome = .error failure ↔ batch.failure? = some failure := by
  unfold outcome
  cases batch.failure? with
  | none => simp
  | some failure => simp

theorem filterMap_func? {fs : List Nat} {fns : List Func} (hfns : fs.map p.func? = fns.map some) :
    fs.filterMap p.func? = fns := by
  have hids := congrArg (List.filterMap id) hfns
  simpa [List.filterMap_map] using hids

theorem func?_of_getElem? {fs : List Nat} {fns : List Func} (hfns : fs.map p.func? = fns.map some)
    {i f : Nat} {fn : Func} (hf : fs[i]? = some f) (hfn : fns[i]? = some fn) :
    p.func? f = some fn := by
  have hi := congrArg (·[i]?) hfns
  simpa [hf, hfn] using hi

theorem Does.independent {fs : List Nat} {fns : List Func} (hfns : fs.map p.func? = fns.map some)
    (hc : ∀ fn ∈ fns, fn.Consistent) (hl : o.localDeadness = false)
    (ho : ∀ s ∈ o.trace, s.Takes fs.length) (hs : schedule.Perm (tasks fs))
    (h : Does o p schedule (.start p o fs.length) after) : Independent p o fs fns after := by
  have hgiven : (given p schedule).Perm fns := by
    rw [← filterMap_func? hfns, ← given_tasks]
    exact hs.filterMap _
  have htask : ∀ {i f : Nat}, fs[i]? = some f → (i, f) ∈ schedule := fun hf =>
    hs.symm.subset (mem_tasks.mpr hf)
  have hlen : fns.length = fs.length := by simpa using (congrArg List.length hfns).symm
  have hfailure : after.failure? = (given p schedule).findSome? (·.rejection?) := h.failure_eq
  have hplaced : ∀ (i f : Nat) (fn : Func), fs[i]? = some f → fns[i]? = some fn →
      fn.malformed? = none → after.results[i]? = some (fn.eliminate o).result := by
    intro i f fn hf hfn hv
    have hlt := (List.getElem?_eq_some_iff.mp hf).1
    exact h.result_eq (i, f) (htask hf) fn (func?_of_getElem? hfns hf hfn) hv (by simpa [start])
  have hnone : after.failure? = none ↔ ∀ fn ∈ fns, fn.malformed? = none := by
    rw [hfailure, List.findSome?_eq_none_iff]
    simp [hgiven.mem_iff, Func.rejection?]
  refine ⟨?_, ?_, ?_, ?_, ?_, ?_, ?_⟩
  · intro i f fn hf hfn hv
    have hlt := (List.getElem?_eq_some_iff.mp hf).1
    have hend := Func.ending_eliminate (hc fn (List.mem_of_getElem? hfn)) hl
      fun s h => (ho s h).mono (by omega)
    rw [hv] at hend
    refine ⟨hend, ?_, hplaced i f fn hf hfn hv⟩
    rw [h.func_eq (i, f) (htask hf), func?_of_getElem? hfns hf hfn, Option.map_some]
  · intro i f fn hf hfn hv
    obtain ⟨m, hm⟩ := Option.ne_none_iff_exists'.mp hv
    rw [h.func_eq (i, f) (htask hf), func?_of_getElem? hfns hf hfn, Option.map_some]
    simp [Func.eliminate, hm, Func.reject]
  · intro f hf
    apply h.func_frame f
    rwa [(hs.map _).mem_iff, map_snd_tasks]
  · intro results
    rw [outcome_eq_ok_iff, hnone]
    refine and_congr_right fun hall => ?_
    have hresults : after.results = fns.map fun fn => (fn.eliminate o).result := by
      apply List.ext_getElem?
      intro i
      cases hfn : fns[i]? with
      | none =>
        have hout := List.getElem?_eq_none_iff.mp hfn
        have hsize : after.results.length = fs.length := by simpa [start] using h.length_eq
        rw [List.getElem?_map, hfn, List.getElem?_eq_none (by omega), Option.map_none]
      | some fn =>
        have hlt := (List.getElem?_eq_some_iff.mp hfn).1
        have hf := List.getElem?_eq_getElem (hlen ▸ hlt)
        rw [List.getElem?_map, hfn, Option.map_some]
        exact hplaced i _ fn hf hfn (hall fn (List.mem_of_getElem? hfn))
    rw [hresults]
    exact eq_comm
  · intro failure he
    rw [outcome_eq_error_iff, hfailure] at he
    obtain ⟨fn, hfn, hrej⟩ := List.exists_of_findSome?_eq_some he
    obtain ⟨m, hm, rfl⟩ := Option.map_eq_some_iff.mp hrej
    exact ⟨fn, hgiven.subset hfn, m, hm, rfl⟩
  · rw [h.tally_eq]
    exact (hgiven.map _).foldl_eq' (fun t _ u _ sum => sum.add_right_comm t u) _
  · exact ⟨_, h.sink_eq, hgiven.flatMap_right _⟩

/-- In whatever order a list of different functions is worked through, every function that the
verifier accepts ends with the state and the result that it would have alone, and the others are
unchanged. There are results if all are accepted. Otherwise a rejected function is reported, and
with one worker it is the first in the list. Totals and written traces do not depend on the order.
-/
theorem run_independent {fs : List Nat} {fns : List Func} (hfs : fs.Nodup)
    (hfns : fs.map p.func? = fns.map some) (hc : ∀ fn ∈ fns, fn.Consistent)
    (hl : o.localDeadness = false) (ho : ∀ s ∈ o.trace, s.Takes fs.length)
    (hs : schedule.Perm (tasks fs)) :
    Independent p o fs fns (run o schedule (.start p o fs.length)) ∧
      (o.workers fs.length = 1 → InTurn (o.workers fs.length) schedule →
        run o schedule (.start p o fs.length) = p.eliminateEach o fs ∧
          ∀ front fn back m, fns = front ++ fn :: back → (∀ g ∈ front, g.malformed? = none) →
            fn.malformed? = some m →
            (p.eliminateEach o fs).outcome = .error (.rejected fn.name (.malformed m))) := by
  have hdoes : ∀ {schedule}, schedule.Perm (tasks fs) →
      Does o p schedule (.start p o fs.length) (run o schedule (.start p o fs.length)) := by
    intro schedule hs
    have hlen : schedule.length = fs.length := by simpa [tasks] using hs.length_eq
    apply does_run
    · intro task _
      rfl
    · rintro ⟨place, f⟩ htask
      have hf := List.mem_of_getElem? (mem_tasks.mp (hs.subset htask))
      have hfn : p.func? f ∈ fns.map some := hfns ▸ List.mem_map_of_mem hf
      obtain ⟨fn, hmem, he⟩ := List.mem_map.mp hfn
      exact ⟨fn, he.symm, hc fn hmem⟩
    · rwa [(hs.map _).nodup_iff, map_snd_tasks]
    · rw [(hs.map _).nodup_iff, map_fst_tasks]
      exact List.nodup_range
    · exact hl
    · rwa [hlen]
    · rwa [hlen]
  refine ⟨(hdoes hs).independent hfns hc hl ho hs, ?_⟩
  intro hworkers hturn
  rw [hworkers, inTurn_one_iff hs] at hturn
  subst hturn
  refine ⟨rfl, ?_⟩
  intro front fn back m he hfront hm
  have hnone : front.findSome? (·.rejection?) = none := by
    rw [List.findSome?_eq_none_iff]
    intro g hg
    simp [Func.rejection?, hfront g hg]
  have hfirst : fns.findSome? (·.rejection?) = some (.rejected fn.name (.malformed m)) := by
    rw [he, List.findSome?_append, hnone, Option.none_or]
    simp [Func.rejection?, hm]
  rw [outcome_eq_error_iff, ← hfirst, ← filterMap_func? hfns, ← given_tasks]
  exact (hdoes hs).failure_eq

/-- The second function has a block without a terminator. -/
def trio : List Func :=
  [.countdown, .changeAll ⟨1, "unfinished", 0, 0, 0, [], []⟩ [.addBlock "entry"], .island]

theorem consistent_trio : ∀ fn ∈ trio, fn.Consistent := by
  have hstart : Func.create 1 "unfinished" 0 = .ok ⟨1, "unfinished", 0, 0, 0, [], []⟩ := rfl
  have hunfinished := (Func.consistent_create hstart).changeAll [.addBlock "entry"]
  simpa [trio] using ⟨Func.consistent_countdown, hunfinished, Func.consistent_island⟩

def traced : Options := ⟨1, false, false, some (.create 0 3), .standard false⟩

theorem run_trio_independent :
    [0, 1, 2].map (Program.func? ⟨trio⟩) = trio.map some ∧ (∀ fn ∈ trio, fn.Consistent) ∧
      traced.localDeadness = false ∧ (∀ s ∈ traced.trace, s.Takes 3) ∧
      [(2, 2), (0, 0), (1, 1)].Perm (tasks [0, 1, 2]) ∧
      Independent ⟨trio⟩ traced [0, 1, 2] trio
        (run traced [(2, 2), (0, 0), (1, 1)] (.start ⟨trio⟩ traced 3)) ∧
      (Program.eliminateEach ⟨trio⟩ traced [0, 1, 2]).outcome = .error
        (.rejected "unfinished" (.malformed ⟨"unfinished", .block 0, .noTerminator⟩)) := by
  have hfns : [0, 1, 2].map (Program.func? ⟨trio⟩) = trio.map some := rfl
  have htakes : ∀ s ∈ traced.trace, s.Takes 3 := by
    simp [traced, Sink.create, Sink.Takes]
  have hperm : [(2, 2), (0, 0), (1, 1)].Perm (tasks [0, 1, 2]) := by decide
  refine ⟨hfns, consistent_trio, rfl, htakes, hperm, ?_, ?_⟩
  · exact (run_independent (by decide) hfns consistent_trio rfl htakes hperm).1
  · have hlist := List.Perm.refl (tasks [0, 1, 2])
    obtain ⟨-, hone⟩ := run_independent (by decide) hfns consistent_trio rfl htakes hlist
    obtain ⟨-, hfirst⟩ := hone (by decide) ((inTurn_one_iff hlist).mpr rfl)
    exact hfirst [.countdown] _ [.island] _ rfl (by simp [Func.malformed?_countdown]) (by decide)

end Batch
end DeadCode
