import DeadCode.Proofs.Elimination.Accounting
import DeadCode.Proofs.Mutation
import DeadCode.Session

/-! # When a live map goes stale

A map answers as long as it is not used up and the epoch is that of its analysis. Whatever is done
in a session, edits in place apart, the epoch has moved as often as the function was changed, and a
function that was once accepted never comes back to blocks it has left. So a map answers just as
long as the function has the blocks and instructions it was made for, and what it says is then what
a new analysis would say.
-/
namespace DeadCode

namespace Query

def operation : Query → Operation
  | func => .func
  | of _ => .of
  | each => .each
  | liveAfterSome _ => .liveAfterSome
  | liveSomewhere _ => .liveSomewhere
  | trace _ => .trace
  | render => .string
  | dead _ => .dead

def reply (lv : Liveness) (fn : Func) : Query → Except Breach Bool
  | of i => if (lv.find? i).isSome then .ok true else .error ⟨.of, .unknownInstr i⟩
  | trace sink => .ok (sink.writeAll (lv.traceLines fn)).2
  | _ => .ok true

end Query

namespace Liveness
variable {lv now : Liveness} {fn : Func}

def Open (lv : Liveness) (fn : Func) : Prop := lv.consumed = false ∧ fn.epoch = lv.epoch

theorem breach?_eq_none_iff {operation : Operation} :
    lv.breach? fn operation = none ↔ lv.Open fn := by
  unfold breach? Open
  cases lv.consumed <;> simp

theorem map_answer {α : Type} (lv : Liveness) (fn : Func) (operation : Operation) (a : α) :
    (lv.answer fn operation a).map (fun _ => true) = match lv.breach? fn operation with
      | some b => .error b
      | none => .ok true := by
  unfold answer
  cases lv.breach? fn operation <;> rfl

/-- Every question is first checked in the same way. -/
theorem ask_eq (lv : Liveness) (fn : Func) (q : Query) :
    lv.ask fn q = match lv.breach? fn q.operation with
      | some b => .error b
      | none => q.reply lv fn := by
  cases q with
  | of i =>
    simp only [ask, of, Query.operation, Query.reply]
    cases lv.breach? fn .of with
    | some b => rfl
    | none => cases lv.find? i <;> rfl
  | trace sink =>
    simp only [ask, trace, Query.operation, Query.reply]
    cases lv.breach? fn .trace <;> rfl
  | func => exact map_answer lv fn _ _
  | each => exact map_answer lv fn _ _
  | liveAfterSome v => exact map_answer lv fn _ _
  | liveSomewhere v => exact map_answer lv fn _ _
  | render => exact map_answer lv fn _ _
  | dead localOnly => exact map_answer lv fn _ _

theorem Open.ask_eq (h : lv.Open fn) (q : Query) : lv.ask fn q = q.reply lv fn := by
  rw [Liveness.ask_eq, breach?_eq_none_iff.mpr h]

theorem exists_ask_eq_error (h : ¬ lv.Open fn) (q : Query) : ∃ b, lv.ask fn q = .error b := by
  obtain ⟨b, hb⟩ := Option.ne_none_iff_exists'.mp (mt breach?_eq_none_iff.mp h)
  exact ⟨b, by rw [ask_eq, hb]⟩

/-- The map is not used up, and the function has the blocks and instructions it was made for. -/
def Current (now : Liveness) (made later : Func) : Prop :=
  now.consumed = false ∧ later.blocks = made.blocks

def Lasts (lv now : Liveness) : Prop := now = lv ∨ now = { lv with consumed := true }

namespace Lasts

theorem trans {mid : Liveness} (h : lv.Lasts mid) (h' : mid.Lasts now) : lv.Lasts now := by
  rcases h with rfl | rfl
  · exact h'
  · rcases h' with rfl | rfl
    · exact .inr rfl
    · exact .inr rfl

theorem eq_of_consumed (h : lv.Lasts now) (hn : now.consumed = false) : now = lv := by
  rcases h with rfl | rfl
  · rfl
  · cases hn

theorem epoch_eq (h : lv.Lasts now) : now.epoch = lv.epoch := by
  rcases h with rfl | rfl
  · rfl
  · rfl

end Lasts
end Liveness

namespace Func
variable {fn : Func}

theorem analyze_eq_ok_iff {lv : Liveness} :
    fn.analyze = .ok lv ↔ fn.malformed? = none ∧ lv = fn.liveness := by
  unfold analyze
  cases fn.malformed? with
  | some m => simp
  | none => simp [eq_comm]

theorem Consistent.reply_liveness (hc : fn.Consistent) {q : Query} (hq : q.Apt fn) :
    q.reply fn.liveness fn = .ok true := by
  cases q with
  | of i =>
    obtain ⟨x, hx, rfl⟩ := hc.alive_iff.mp hq
    obtain ⟨p, hp⟩ := exists_at?_of_mem_code hx
    obtain ⟨s, -, hfind⟩ := hc.find?_liveness hp
    simp [Query.reply, hfind]
  | trace sink => simp [Query.reply, Sink.writeAll_of_room_eq_none hq]
  | _ => rfl

theorem RunsTo.mutatesIn {localOnly : Bool} {k : Nat} {c : Course} (h : fn.RunsTo localOnly k c)
    {j : Nat} (hj : j ≤ k) : fn.MutatesIn j (fn.stage localOnly j) := by
  induction j with
  | zero => exact .none
  | succ j ih =>
    rw [stage_succ_eq_without]
    exact .step (ih (by omega)) (.fewer (h.busy j hj) (h.removable j hj))

/-- However an elimination ends, it has completed all its rounds but the last. -/
theorem Consistent.eliminate_eq_stage (hc : fn.Consistent) (o : Options) {k : Nat}
    (hk : (fn.eliminate o).result.rounds - 1 = k) :
    (fn.eliminate o).func = fn.stage o.localDeadness k ∧
      fn.MutatesIn k (fn.stage o.localDeadness k) ∧
      ∀ j < k, (fn.stage o.localDeadness j).removeAll
        ((fn.stage o.localDeadness j).idle o.localDeadness) =
          .ok (fn.stage o.localDeadness (j + 1)) := by
  cases hv : fn.malformed? with
  | some m =>
    obtain rfl : 0 = k := by simpa [eliminate, hv, reject, Result.ofRounds] using hk
    exact ⟨by simp [eliminate, hv, reject, stage_zero], .none, by simp⟩
  | none =>
    cases ht : fn.writeTrace o.trace with
    | none =>
      obtain rfl : 0 = k := by simpa [eliminate, hv, ht, reject, Result.ofRounds] using hk
      exact ⟨by simp [eliminate, hv, ht, reject, stage_zero], .none, by simp⟩
    | some sink =>
      rw [eliminate_eq_of_begun hv ht] at hk ⊢
      obtain ⟨m, hm⟩ := (malformed?_eq_none_iff.mp hv).exists_runsTo hc o.localDeadness
        o.verifyRounds 1 (Nat.lt_succ_self _)
      change fn.RunsTo o.localDeadness m (fn.begun o) at hm
      obtain rfl : m = k := by simpa [Result.ofRounds, hm.rounds_eq] using hk
      exact ⟨hm.func_eq, hm.mutatesIn (Nat.le_refl m), fun j hj => hm.removeAll_stage hc hj⟩

end Func

namespace Session
variable {s t u : Session} {a : Action} {n : Nat}

/-- The second session comes after the first, and the function has changed this number of times in
between. -/
structure Leads (s : Session) (n : Nat) (t : Session) : Prop where
  func : s.func.MutatesIn n t.func
  maps : ∀ (k : Nat) (lv : Liveness), s.maps[k]? = some lv →
    ∃ now, t.maps[k]? = some now ∧ lv.Lasts now

namespace Leads

theorem refl (s : Session) : s.Leads 0 s := ⟨.none, fun _ lv hk => ⟨lv, hk, .inl rfl⟩⟩

theorem trans {m : Nat} (h : s.Leads m t) (h' : t.Leads n u) : s.Leads (m + n) u := by
  refine ⟨h.func.trans h'.func, ?_⟩
  intro k lv hk
  obtain ⟨mid, hmid, hl⟩ := h.maps k lv hk
  obtain ⟨now, hnow, hl'⟩ := h'.maps k mid hmid
  exact ⟨now, hnow, hl.trans hl'⟩

end Leads

theorem mutatesIn_change (hc : s.func.Consistent) {c : Change}
    (ha : (Action.change c).inPlace = false) :
    s.func.MutatesIn (s.mutations (.change c)) (s.func.change c) := by
  cases hr : s.func.change? c with
  | error m => simpa [mutations, fails, Func.change, hr] using Func.MutatesIn.none
  | ok rest =>
    have hfails : s.fails (.change c) = false := by simp [fails, hr]
    simp only [mutations, hfails, Func.change, hr, Bool.false_eq_true, false_or]
    by_cases he : c = .removeAll []
    · subst he
      change s.func.removeAll [] = .ok rest at hr
      obtain ⟨-, rfl⟩ := (Func.removeAll_eq_ok_iff hc).mp hr
      exact .none
    · rw [if_neg he]
      refine .step .none (Func.mutates_of_change? hc hr he ?_)
      rintro i p rfl
      cases ha

theorem leads_release (hc : s.func.Consistent) (k : Nat) (ins : List Int) :
    s.Leads (s.mutations (.release k ins)) (s.act (.release k ins)) := by
  cases hk : s.maps[k]? with
  | none => simpa [mutations, fails, act, hk] using Leads.refl s
  | some lv =>
    have hmaps : ∀ {map}, lv.Lasts map → ∀ (j : Nat) (other : Liveness), s.maps[j]? = some other →
        ∃ now, (s.maps.set k map)[j]? = some now ∧ other.Lasts now := by
      intro map hlasts j other hj
      by_cases he : k = j
      · subst he
        obtain rfl := Option.some.inj (hk.symm.trans hj)
        exact ⟨map, by simp [(List.getElem?_eq_some_iff.mp hk).1], hlasts⟩
      · exact ⟨other, by rw [List.getElem?_set_ne he, hj], .inl rfl⟩
    rcases Func.release_cases hc lv ins with ⟨-, hr, he⟩ | ⟨map, fault, hmap, he⟩
    · simp only [mutations, fails, act, hk, he, Option.isSome_none, Bool.false_eq_true, false_or]
      by_cases hne : ins = []
      · rw [if_pos hne, if_pos hne]
        exact ⟨.none, hmaps (.inr rfl)⟩
      · rw [if_neg hne, if_neg hne]
        exact ⟨.step .none (.fewer hne hr), hmaps (.inr rfl)⟩
    · simp only [mutations, fails, act, hk, he, Option.isSome_some, true_or, ↓reduceIte]
      exact ⟨.none, hmaps hmap⟩

theorem leads_act (hc : s.func.Consistent) (ha : a.inPlace = false) :
    s.Leads (s.mutations a) (s.act a) := by
  cases a with
  | change c => exact ⟨mutatesIn_change hc ha, (Leads.refl s).maps⟩
  | analyze =>
    unfold act
    cases s.func.analyze with
    | error m => exact .refl s
    | ok lv =>
      refine ⟨.none, fun k other hk => ⟨other, ?_, .inl rfl⟩⟩
      rw [List.getElem?_append_left (List.getElem?_eq_some_iff.mp hk).1, hk]
  | release k ins => exact leads_release hc k ins
  | eliminate o =>
    obtain ⟨hfunc, hm, -⟩ := hc.eliminate_eq_stage o rfl
    rw [← hfunc] at hm
    exact ⟨hm, (Leads.refl s).maps⟩

theorem leads_actAll (hc : s.func.Consistent) {actions : List Action}
    (hplain : ∀ a ∈ actions, a.inPlace = false) :
    s.Leads (s.mutationsAll actions) (s.actAll actions) := by
  induction actions generalizing s with
  | nil => exact .refl s
  | cons a rest ih =>
    have hstep := leads_act hc (hplain a List.mem_cons_self)
    have hrest : ∀ b ∈ rest, b.inPlace = false := fun b hb => hplain b (List.mem_cons_of_mem a hb)
    exact hstep.trans (ih (hstep.func.consistent hc) hrest)

theorem actAll_append (s : Session) (first rest : List Action) :
    s.actAll (first ++ rest) = (s.actAll first).actAll rest :=
  List.foldl_append

theorem mutationsAll_append (s : Session) (first rest : List Action) :
    s.mutationsAll (first ++ rest) =
      s.mutationsAll first + (s.actAll first).mutationsAll rest := by
  induction first generalizing s with
  | nil => simp [mutationsAll, actAll]
  | cons a first ih =>
    rw [List.cons_append, mutationsAll, ih, mutationsAll, Nat.add_assoc]
    rfl

/-- The action has left the function as it was, except for completed removal rounds. -/
structure Spares (s : Session) (a : Action) : Prop where
  epoch_eq : (s.act a).func.epoch = s.func.epoch + UInt64.ofNat (s.completed a)
  func_eq : s.completed a = 0 → (s.act a).func = s.func
  rounds : ∀ o, a = .eliminate o → ∀ j < s.completed a,
    (s.func.stage o.localDeadness j).removeAll
      ((s.func.stage o.localDeadness j).idle o.localDeadness) =
        .ok (s.func.stage o.localDeadness (j + 1))
  stage_eq : ∀ o, a = .eliminate o →
    (s.act a).func = s.func.stage o.localDeadness (s.completed a)

theorem func_act_of_fails (hc : s.func.Consistent) (hf : s.fails a = true)
    (hne : ∀ o, a ≠ .eliminate o) : (s.act a).func = s.func := by
  cases a with
  | change c =>
    unfold fails at hf
    unfold act Func.change
    cases hr : s.func.change? c with
    | ok rest => simp [hr] at hf
    | error m => simp [hr]
  | analyze =>
    unfold act
    cases s.func.analyze with
    | error m => rfl
    | ok lv => rfl
  | release k ins =>
    unfold fails at hf
    unfold act
    cases hk : s.maps[k]? with
    | none => simp [hk]
    | some lv =>
      rcases Func.release_cases hc lv ins with ⟨-, -, he⟩ | ⟨map, fault, -, he⟩
      · simp [hk, he] at hf
      · simp [hk, he]
  | eliminate o => exact absurd rfl (hne o)

theorem spares_of_fails (hc : s.func.Consistent) (hf : s.fails a = true) : s.Spares a := by
  by_cases ha : ∃ o, a = .eliminate o
  · obtain ⟨o, rfl⟩ := ha
    obtain ⟨hfunc, hm, hrounds⟩ := hc.eliminate_eq_stage o rfl
    rw [← hfunc] at hm
    refine ⟨hm.epoch_eq, hm.eq_of_eq_zero, ?_, ?_⟩
    · rintro _ ⟨⟩
      exact hrounds
    · rintro _ ⟨⟩
      exact hfunc
  · have hne : ∀ o, a ≠ .eliminate o := fun o he => ha ⟨o, he⟩
    have hfunc := func_act_of_fails hc hf hne
    have hzero : s.completed a = 0 := by
      unfold completed
      split
      · next o => exact absurd rfl (hne o)
      · rfl
    refine ⟨?_, fun _ => hfunc, fun o he => absurd he (hne o), fun o he => absurd he (hne o)⟩
    rw [hfunc, hzero]
    simp

namespace Leads
variable {lv now : Liveness}

theorem func_eq (h : s.Leads n t) (hc : s.func.Consistent) (hlv : s.func.analyze = .ok lv)
    (hcur : now.Current s.func t.func) : t.func = s.func := by
  have hw := Func.malformed?_eq_none_iff.mp (Func.analyze_eq_ok_iff.mp hlv).1
  exact h.func.eq_of_blocks_eq hw.sealed hc hcur.2

theorem eq_zero (h : s.Leads n t) (hn : n < 2 ^ 64) (hlv : s.func.analyze = .ok lv)
    (hl : lv.Lasts now) (ho : now.Open t.func) : n = 0 := by
  apply h.func.eq_zero_of_epoch_eq hn
  rw [ho.2, hl.epoch_eq, (Func.analyze_eq_ok_iff.mp hlv).2]
  rfl

/-- The test of the epoch is exact: a map may be asked if and only if it is current. -/
theorem open_iff (h : s.Leads n t) (hn : n < 2 ^ 64) (hc : s.func.Consistent)
    (hlv : s.func.analyze = .ok lv) (hl : lv.Lasts now) :
    now.Open t.func ↔ now.Current s.func t.func := by
  constructor
  · intro ho
    rw [h.func.eq_of_eq_zero (h.eq_zero hn hlv hl ho)]
    exact ⟨ho.1, rfl⟩
  · intro hcur
    refine ⟨hcur.1, ?_⟩
    rw [h.func_eq hc hlv hcur, hl.epoch_eq, (Func.analyze_eq_ok_iff.mp hlv).2]
    rfl

/-- If a map may be asked now, it could be asked at any time since it was made, about the same
function. -/
theorem eq_of_open {m : Nat} {old : Liveness} (h : s.Leads m t) (h' : t.Leads n u)
    (hn : m + n < 2 ^ 64) (hlv : s.func.analyze = .ok lv) (hl : lv.Lasts old)
    (hl' : old.Lasts now) (ho : now.Open u.func) : now = old ∧ u.func = t.func := by
  have hzero := (h.trans h').eq_zero hn hlv (hl.trans hl') ho
  exact ⟨hl'.eq_of_consumed ho.1, h'.func.eq_of_eq_zero (by omega)⟩

end Leads

/-- Let a map be made of a function, and let anything but edits in place follow: changes, refused or
not, eliminations, and releases of this and of other maps. Unless the epoch has gone all the way
round, the map answers if and only if it is not used up and the function has the blocks and
instructions of that time; the function is then the same in every respect, and a new analysis would
give the same map. A question that was refused once is refused ever after. An action that fails
leaves the function as it was, but for the removal rounds that an elimination has completed. -/
theorem answers_iff_current {k : Nat} {lv : Liveness} {actions : List Action}
    (hc : s.func.Consistent) (hlv : s.func.analyze = .ok lv) (hk : s.maps[k]? = some lv)
    (hplain : ∀ a ∈ actions, a.inPlace = false) (hcount : s.mutationsAll actions < 2 ^ 64) :
    ∃ now, (s.actAll actions).maps[k]? = some now ∧
      (∀ q : Query, q.Apt (s.actAll actions).func →
        (now.ask (s.actAll actions).func q = .ok true ↔
          now.Current s.func (s.actAll actions).func)) ∧
      (¬ now.Current s.func (s.actAll actions).func →
        ∀ q, ∃ b, now.ask (s.actAll actions).func q = .error b) ∧
      (now.Current s.func (s.actAll actions).func →
        (s.actAll actions).func = s.func ∧ (s.actAll actions).func.analyze = .ok now) ∧
      (∀ first rest, actions = first ++ rest → ∀ old q b, (s.actAll first).maps[k]? = some old →
        old.ask (s.actAll first).func q = .error b →
        ∃ b', now.ask (s.actAll actions).func q = .error b') ∧
      ∀ first a rest, actions = first ++ a :: rest → (s.actAll first).fails a = true →
        (s.actAll first).Spares a := by
  have hall := leads_actAll hc hplain
  obtain ⟨now, hnow, hl⟩ := hall.maps k lv hk
  have hopen := hall.open_iff hcount hc hlv hl
  have hfresh : now.Current s.func (s.actAll actions).func →
      now = s.func.liveness ∧ (s.actAll actions).func = s.func := by
    intro hcur
    rw [hl.eq_of_consumed hcur.1, ← (Func.analyze_eq_ok_iff.mp hlv).2]
    exact ⟨rfl, hall.func_eq hc hlv hcur⟩
  refine ⟨now, hnow, ?_, ?_, ?_, ?_, ?_⟩
  · intro q hq
    constructor
    · intro hask
      rw [← hopen]
      by_contra hno
      obtain ⟨b, hb⟩ := Liveness.exists_ask_eq_error hno q
      rw [hb] at hask
      cases hask
    · intro hcur
      rw [(hopen.mpr hcur).ask_eq]
      obtain ⟨hmap, hfunc⟩ := hfresh hcur
      rw [hfunc] at hq ⊢
      rw [hmap]
      exact hc.reply_liveness hq
  · intro hno q
    exact Liveness.exists_ask_eq_error (mt hopen.mp hno) q
  · intro hcur
    obtain ⟨hmap, hfunc⟩ := hfresh hcur
    refine ⟨hfunc, ?_⟩
    rw [hfunc, hlv, (Func.analyze_eq_ok_iff.mp hlv).2, hmap]
  · rintro first rest rfl old q b hold hask
    by_cases ho : now.Open (s.actAll (first ++ rest)).func
    · -- nothing has changed since, so the answer is still the same
      have hfirst := leads_actAll hc fun a ha => hplain a (List.mem_append_left rest ha)
      have hrest := leads_actAll (hfirst.func.consistent hc) fun a ha =>
        hplain a (List.mem_append_right first ha)
      rw [actAll_append] at ho hnow ⊢
      rw [mutationsAll_append] at hcount
      obtain ⟨past, hpast, hlasts⟩ := hfirst.maps k lv hk
      obtain rfl := Option.some.inj (hold.symm.trans hpast)
      obtain ⟨next, hnext, hlasts'⟩ := hrest.maps k old hold
      obtain rfl := Option.some.inj (hnow.symm.trans hnext)
      obtain ⟨hmap, hfunc⟩ := hfirst.eq_of_open hrest hcount hlv hlasts hlasts' ho
      rw [hmap, hfunc]
      exact ⟨b, hask⟩
    · exact Liveness.exists_ask_eq_error ho q
  · rintro first a rest rfl hf
    have hfirst := leads_actAll hc fun b hb => hplain b (List.mem_append_left (a :: rest) hb)
    exact spares_of_fails (hfirst.func.consistent hc) hf

def pair : Session := ⟨Func.countdown, [Func.countdown.liveness, Func.countdown.liveness]⟩

def attempts : List Action := [
  .release 0 [7], .change (.removeAll [4]),
  .eliminate ⟨1, true, false, some (.create 0 0), .standard false⟩, .analyze]

def removals : List Action := [.release 1 [6], .eliminate ⟨1, true, false, none, .standard false⟩]

theorem answers_pair :
    pair.func.Consistent ∧ pair.func.analyze = .ok Func.countdown.liveness ∧
      (∀ a ∈ attempts ++ removals, a.inPlace = false) ∧
      pair.mutationsAll (attempts ++ removals) = 2 ∧
      Func.countdown.liveness.ask (pair.actAll attempts).func (.of 5) = .ok true ∧
      (pair.actAll attempts).func.analyze = .ok Func.countdown.liveness ∧
      (pair.actAll (attempts ++ removals)).maps[0]? = some Func.countdown.liveness ∧
      (∀ q, ∃ b, Func.countdown.liveness.ask (pair.actAll (attempts ++ removals)).func q =
        .error b) ∧
      pair.Spares (.release 0 [7]) := by
  have hc : pair.func.Consistent := Func.consistent_countdown
  have hlv : pair.func.analyze = .ok Func.countdown.liveness := by decide
  have hplain : ∀ a ∈ attempts ++ removals, a.inPlace = false := by decide
  have hcount : pair.mutationsAll (attempts ++ removals) = 2 := by decide
  have hfailed : ∀ a ∈ attempts, a.inPlace = false := by decide
  obtain ⟨map, hmap, hanswers, -, hfresh, -, hspares⟩ :=
    answers_iff_current (k := 0) hc hlv rfl hfailed (by decide)
  obtain ⟨old, hold, -, hrefused, -⟩ :=
    answers_iff_current (k := 0) hc hlv rfl hplain (by rw [hcount]; decide)
  have hkept : (pair.actAll attempts).maps[0]? = some Func.countdown.liveness := by decide
  have hkept' : (pair.actAll (attempts ++ removals)).maps[0]? = some Func.countdown.liveness := by
    decide
  obtain rfl := Option.some.inj (hkept.symm.trans hmap)
  obtain rfl := Option.some.inj (hkept'.symm.trans hold)
  have hcur : Func.countdown.liveness.Current pair.func (pair.actAll attempts).func :=
    ⟨rfl, by decide⟩
  have halive : (pair.actAll attempts).func.alive 5 = true := by decide
  refine ⟨hc, hlv, hplain, hcount, ?_, (hfresh hcur).2, hkept', ?_, ?_⟩
  · exact (hanswers (.of 5) halive).mpr hcur
  · exact hrefused fun h => absurd h.2 (by decide)
  · exact hspares [] _ _ rfl (by decide)

end Session
end DeadCode
