import Stx.Base

/-! `cli/flagparser.{h,cc}`: how the arguments of a command line are shared out to the flags that
are defined and to the positional arguments. -/
namespace Stx.Cli

inductive kFlagType where
  | switch | string | float | integer
  deriving DecidableEq, Repr

structure FlagState where
  type : kFlagType
  required : Bool
  longopt : Bytes
  shortopt : Option Bytes
  values : List Bytes
  deriving DecidableEq, Repr

structure FlagParser where
  argv_ : List Bytes
  flags_ : List FlagState
  deriving DecidableEq, Repr

/-- The flag that an argument is for. `eq_len` is -1 unless a value is expected in the argument. It
is an `int`. -/
structure Hit where
  index : Nat
  flag : FlagState
  eq_len : Int
  deriving DecidableEq, Repr

/-- A size that is put into an `int`. -/
def toInt (n : Nat) : Int := Int.bmod n (2^32)

/-- `arg.compare(0, size, text) == 0`. -/
def startsWith (arg text : Bytes) : Bool := text.isPrefixOf arg

/-- The comparisons of an argument with one flag, in their order. -/
def matchFlag (flag : FlagState) (arg : Bytes) : Option Int :=
  let longopt := lit "--" ++ flag.longopt
  let longopt_eq := lit "--" ++ flag.longopt ++ lit "="
  if arg.length = longopt.length ∧ startsWith arg longopt then some (-1)
  else if arg.length = longopt_eq.length ∧ startsWith arg longopt_eq then
    some (toInt longopt_eq.length)
  else
    match flag.shortopt with
    | none => none
    | some shortopt =>
      let shortopt_eq := lit "-" ++ shortopt ++ lit "="
      let shortopt := lit "-" ++ shortopt
      if startsWith arg shortopt then some (-1)
      else if startsWith arg shortopt_eq then some (toInt shortopt_eq.length)
      else none

/-- The first flag that the argument is for, with the index of the first flag. -/
def findFlag (index : Nat) (flags : List FlagState) (arg : Bytes) : Option Hit :=
  match flags with
  | [] => none
  | flag :: flags =>
    match matchFlag flag arg with
    | some eq_len => some ⟨index, flag, eq_len⟩
    | none => findFlag (index+1) flags arg

namespace FlagParser

def addValue (p : FlagParser) (index : Nat) (value : Bytes) : FlagParser :=
  { p with flags_ := p.flags_.modify index fun flag =>
    { flag with values := flag.values ++ [value] } }

def keep (p : FlagParser) (arg : Bytes) : FlagParser := { p with argv_ := p.argv_ ++ [arg] }

def noValue (flag : FlagState) : Result FlagParser :=
  .raise (.printf .flagError (lit "flag --" ++ flag.longopt ++ lit " has no value"))

/-- The loop over the arguments from the one with the number `i` on, which is an `int`: behind 2^31
of them it is negative, as a size larger than their number. -/
def parseLoop (i : Nat) : List Bytes → FlagParser → Result FlagParser
  | [], p => .ok p
  | arg :: rest, p =>
    if 2^31 ≤ i then .ok p
    else if arg.length = 0 then parseLoop (i+1) rest p
    else
      match findFlag 0 p.flags_ arg with
      | none => parseLoop (i+1) rest (p.keep arg)
      | some hit =>
        if hit.flag.type = .switch then parseLoop (i+1) rest (p.addValue hit.index (lit "true"))
        else if hit.eq_len > 0 then
          if arg.length = hit.eq_len then
            .raise (.printf .flagError
              (lit "flag --" ++ hit.flag.longopt ++ lit "=... has no value"))
          else parseLoop (i+1) rest (p.addValue hit.index (arg.drop hit.eq_len.toNat))
        else
          match rest with
          | [] => noValue hit.flag
          | value :: rest =>
            if i+1 < 2^31 then parseLoop (i+2) rest (p.addValue hit.index value)
            else noValue hit.flag

/-- Behind the loop, every flag that is required has to have a value. -/
def parseArgv (p : FlagParser) (argv : List Bytes) : Result FlagParser := do
  let p ← parseLoop 0 argv p
  match p.flags_.find? fun flag => flag.required && flag.values.isEmpty with
  | some flag =>
    .raise (.printf .flagError (lit "flag --" ++ flag.longopt ++ lit " is required"))
  | none => pure p

end FlagParser
end Stx.Cli
