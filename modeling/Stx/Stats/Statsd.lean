import Stx.Base

/-! `stats/statsd.{h,cc}`: the samples in a packet. `std::stod` is a parameter, with the number of
characters that it reads. -/
namespace Stx.Stats

inductive StatsdParseState where
  | key | labelOrValue | label | value
  deriving DecidableEq, Repr

/-- The variables that the samples of a packet are put into, one after the other. -/
structure Scratch where
  key : Bytes
  value : Bytes
  labels : List (Bytes × Bytes)
  deriving DecidableEq, Repr

def isLineBreak (c : UInt8) : Bool := c = 10 ∨ c = 13

/-- A label has an equals sign, and something behind it. -/
def pushLabel (text : Bytes) (out : Scratch) : Result Scratch :=
  let split := text.takeWhile fun c => c ≠ 61
  if split.length+1 ≥ text.length then
    .raise (.printf .parseError (lit "invalid label (format is k=v): '" ++ cStr text ++ lit "'"))
  else .ok { out with labels := out.labels ++ [(split, text.drop (split.length+1))] }

/-- The characters from `mark` to `cur`, and those from `cur` to the end. The NUL behind the last
one is looked at like the others, and then the loop is over. -/
def parseLoop : StatsdParseState → Bytes → Bytes → Scratch → Result (Bytes × Scratch)
  | .key, mark, [], out => .ok ([], { out with key := mark })
  | .key, mark, c :: cur, out =>
    if c = 91 then parseLoop .label [] cur { out with key := mark }
    else if c = 58 ∨ c = 0 then parseLoop .value [] cur { out with key := mark }
    else if c = 61 then Result.RAISE .parseError "invalid equal sign in metric key"
    else parseLoop .key (mark ++ [c]) cur out
  | .labelOrValue, _, [], _ => Result.RAISE .parseError "unexpected..."
  | .labelOrValue, _, c :: cur, out =>
    if c = 91 then parseLoop .label [] cur out
    else if c = 58 then parseLoop .value [] cur out
    else Result.RAISE .parseError "unexpected..."
  | .label, mark, [], out => do
    let out ← pushLabel mark out
    pure ([], out)
  | .label, mark, c :: cur, out =>
    if c = 93 ∨ c = 58 ∨ c = 0 then do
      let out ← pushLabel mark out
      parseLoop .labelOrValue [] cur out
    else parseLoop .label (mark ++ [c]) cur out
  | .value, _, cur, out =>
    .ok ((cur.dropWhile fun c => !isLineBreak c).dropWhile isLineBreak,
      { out with value := cur.takeWhile fun c => !isLineBreak c })

def parseStatsdSample (text : Bytes) (out : Scratch) : Result (Bytes × Scratch) :=
  parseLoop .key [] text out

/-- A call of the callback, with the place at which its sample begins in the packet. -/
structure Report (ν : Type) where
  begin : Nat
  key : Bytes
  value : ν
  labels : List (Bytes × Bytes)
  deriving DecidableEq, Repr

section
variable {ν : Type} (stod : Bytes → Option (ν × Nat))

/-- How the loop ends, and the calls of the callback. What was found of an earlier sample is still
in the variables, but for the labels. -/
def messageLoop : Nat → Nat → Bytes → Scratch → Result Unit × List (Report ν)
  | _, _, [], _ => (.ok (), [])
  | 0, _, _ :: _, _ => (.diverge, [])
  | fuel+1, begin, text, out =>
    match parseStatsdSample text out with
    | .ok (rest, out) =>
      match stod out.value with
      | none => (.ok (), [])
      | some (float_value, _) =>
        let next := messageLoop fuel (begin+(text.length-rest.length)) rest { out with labels := [] }
        (next.1, ⟨begin, out.key, float_value, out.labels⟩ :: next.2)
    | .raise e => (.raise e, [])
    | .diverge => (.diverge, [])

def messageReceived (msg : Bytes) : Result Unit × List (Report ν) :=
  messageLoop stod msg.length 0 msg ⟨[], [], []⟩

end
end Stx.Stats
