import DeadCode.Liveness.Basic
import DeadCode.Sink

/-! # Printed live maps

The trace has one line for every instruction that is not a merge, with what is live before it, and
closes with an empty set. The full text shows every instruction beside its live sets. Both print
the payloads as they are now, beside the sets of the time of the analysis.
-/
namespace DeadCode.Liveness

def traceLines (lv : Liveness) (fn : Func) : List String :=
  let lines := fn.code.filterMap fun x =>
    if x.kind = .merge then none
    else (lv.find? x.id).map fun e => e.sides.before.text ++ "\n"
  lines ++ [(∅ : ValueSet).text ++ "\n"]

def traceText (lv : Liveness) (fn : Func) : String := String.join (lv.traceLines fn)

/-- Writes the trace line by line; tells whether the sink took all of it. -/
def trace (lv : Liveness) (fn : Func) (sink : Sink) : Except Breach (Sink × Bool) :=
  match lv.breach? fn .trace with
  | some b => .error b
  | none => .ok (sink.writeAll (lv.traceLines fn))

/-- Fills up with blanks on the right; a longer text stays as it is. -/
def padRight (width : Nat) (s : String) : String :=
  s ++ String.ofList (List.replicate (width - s.length) ' ')

def codeWidth : Nat := 32

def entryLines (x : Instr) (e : LiveEntry) : List String :=
  let line := "    " ++ padRight codeWidth x.text ++ " # in = " ++ e.sides.before.text
    ++ ", out = " ++ e.sides.after.text
  line :: (e.uses.getD []).map fun (p, vs) =>
    "    " ++ padRight codeWidth "" ++ " # use[" ++ blockText p ++ "] = " ++ vs.text

def blockLines (lv : Liveness) (b : Int) (block : BasicBlock) : List String :=
  (blockText b ++ ":") :: block.code.flatMap fun x =>
    match lv.find? x.id with
    | some e => entryLines x e
    | none => []

def render (lv : Liveness) (fn : Func) : Except Breach String :=
  let head := "Liveness(" ++ fn.name ++ ", sweeps = " ++ toString lv.sweeps ++ ") \x7b"
  let blocks := (fn.blockIds.zip fn.blocks).flatMap fun (b, block) => lv.blockLines b block
  lv.answer fn .string (String.intercalate "\n" (head :: blocks ++ ["\x7d"]))

end DeadCode.Liveness
