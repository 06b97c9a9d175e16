/-
Settings of an evaluation, shared by all the evaluations nested in it.
-/
import Stepwise.Json.Reader

namespace Stepwise

structure Config where
  /-- How many frames may stand on the stack, those of suspended machines included; zero is
  no limit. -/
  maxStackDepth : Nat := 0
  /-- How many evaluations of source text may run inside one another. -/
  maxEvalDepth : Nat := 16
  /-- Is source text evaluated at all? -/
  allowEval : Bool := true
deriving DecidableEq

namespace Config

def withMaxStackDepth (depth : Nat) (c : Config) : Config := { c with maxStackDepth := depth }

def withMaxEvalDepth (depth : Nat) (c : Config) : Config := { c with maxEvalDepth := depth }

def withEval (allow : Bool) (c : Config) : Config := { c with allowEval := allow }

/-- Is a stack of so many frames within the limit? -/
@[macro_inline]
def allowsDepth (c : Config) (depth : Nat) : Bool :=
  c.maxStackDepth == 0 || depth ≤ c.maxStackDepth

/-! ### Decoding -/

/-- The names of the settings, in order. -/
def settingNames : List String := ["max_stack_depth", "max_eval_depth", "allow_eval"]

/-- Take one setting over; an unknown name and a value of the wrong kind are refused. -/
def set? (c : Config) (name : String) (value : Json) : Option Config :=
  match name, value with
  | "allow_eval", .bool b => some { c with allowEval := b }
  | "max_stack_depth", v => v.toCount?.map fun n => { c with maxStackDepth := n }
  | "max_eval_depth", v => v.toCount?.map fun n => { c with maxEvalDepth := n }
  | _, _ => none

/-- Settings by name, each once at most, or all in order; those not given keep their
default. -/
def ofJson? : Json → Option Config
  | .object members =>
    if members.Pairwise fun a b => a.1 ≠ b.1 then
      members.foldlM (fun c (name, value) => c.set? name value) {}
    else none
  | .array items =>
    if items.length ≤ settingNames.length then
      (settingNames.zip items).foldlM (fun c (name, value) => c.set? name value) {}
    else none
  | _ => none

def ofText? (text : String) : Option Config :=
  (Json.ofText? Json.maxLevels text).bind ofJson?

end Config

end Stepwise
