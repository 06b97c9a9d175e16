/-
The store that a script starts with.

The constructors and their prototypes stand at their fixed places from the beginning, so
that each may refer to any other; their methods and the global names are added after.
Nothing of the library shows in an enumeration.
-/
import Stepwise.Builtin.Call
import Stepwise.Store.Scope

namespace Stepwise

/-- A function of the library under the name that scripts call it by. -/
structure LibraryFunction where
  name : String
  code : Builtin
  arity : Nat

namespace Library

/-! ### Constructors -/

/-- A constructor and its prototype, which stands behind it. -/
structure Pair where
  name : String
  code : Builtin
  arity : Nat
  constructor : ObjectId

/-- The constructors, in the order of their global names. -/
def pairs : List Pair := [
  ⟨"Function", .functionConstructor, 1, Intrinsic.function⟩,
  ⟨"Object", .objectConstructor, 1, Intrinsic.object⟩,
  ⟨"Array", .arrayConstructor, 1, Intrinsic.array⟩,
  ⟨"Number", .numberConstructor, 1, Intrinsic.number⟩,
  ⟨"String", .stringConstructor, 1, Intrinsic.string⟩,
  ⟨"Boolean", .booleanConstructor, 1, Intrinsic.boolean⟩,
  ⟨"Date", .dateConstructor, 7, Intrinsic.date⟩]

def Pair.prototype (p : Pair) : ObjectId := ⟨p.constructor.index + 1⟩

/-- A constructor with its link to the prototype. -/
def Pair.constructorObject (p : Pair) : Object :=
  (Object.new (some Intrinsic.function)
      (.function (.native ⟨p.name, .builtin p.code, p.arity⟩))).define
    .prototype ⟨.object p.prototype, false, false⟩
  |>.define .length ⟨.ofNat p.arity, true, false⟩

/-- A prototype with its link back.  That of `Object` ends every chain. -/
def Pair.prototypeObject (p : Pair) : Object :=
  let parent := if p.constructor == Intrinsic.object then none else some Intrinsic.object
  (Object.new parent .ordinary).define (.name "constructor") ⟨.object p.constructor, false, false⟩

/-- The objects at the fixed places: the global scope, then each constructor with its
prototype. -/
def fixedObjects : List Object :=
  .new (some Intrinsic.object) (.scope none)
    :: pairs.flatMap fun p => [p.constructorObject, p.prototypeObject]

/-! ### Methods -/

def functionMethods : List LibraryFunction := [
  ⟨"toString", .functionToText, 0⟩,
  ⟨"valueOf", .itself, 0⟩]

def objectMethods : List LibraryFunction := [
  ⟨"toString", .objectToText, 0⟩,
  ⟨"valueOf", .itself, 0⟩]

def arrayMethods : List LibraryFunction := [
  ⟨"push", .array .push, 1⟩,
  ⟨"pop", .array .pop, 0⟩,
  ⟨"shift", .array .shift, 0⟩,
  ⟨"unshift", .array .unshift, 1⟩,
  ⟨"splice", .array .splice, 2⟩,
  ⟨"reverse", .array .reverse, 0⟩,
  ⟨"concat", .array .concat, 1⟩,
  ⟨"slice", .array .slice, 2⟩,
  ⟨"join", .array .join, 1⟩,
  ⟨"toString", .array .toText, 0⟩,
  ⟨"indexOf", .array .indexOf, 1⟩,
  ⟨"lastIndexOf", .array .lastIndexOf, 1⟩]

def numberMethods : List LibraryFunction := [
  ⟨"toFixed", .number .toFixed, 1⟩,
  ⟨"toString", .number .toText, 1⟩,
  ⟨"toPrecision", .number .toPrecision, 1⟩,
  ⟨"toExponential", .number .toExponential, 1⟩,
  ⟨"valueOf", .number .valueOf, 0⟩]

def stringMethods : List LibraryFunction := [
  ⟨"toLowerCase", .string .toLower, 0⟩,
  ⟨"toUpperCase", .string .toUpper, 0⟩,
  ⟨"toLocaleLowerCase", .string .toLower, 0⟩,
  ⟨"toLocaleUpperCase", .string .toUpper, 0⟩,
  ⟨"trim", .string .trim, 0⟩,
  ⟨"trimLeft", .string .trimLeft, 0⟩,
  ⟨"trimRight", .string .trimRight, 0⟩,
  ⟨"charAt", .string .charAt, 1⟩,
  ⟨"charCodeAt", .string .charCodeAt, 1⟩,
  ⟨"indexOf", .string .indexOf, 1⟩,
  ⟨"lastIndexOf", .string .lastIndexOf, 1⟩,
  ⟨"split", .string .split, 2⟩,
  ⟨"substring", .string .substring, 2⟩,
  ⟨"substr", .string .substr, 2⟩,
  ⟨"concat", .string .concat, 1⟩,
  ⟨"toString", .string .valueOf, 0⟩,
  ⟨"valueOf", .string .valueOf, 0⟩]

def booleanMethods : List LibraryFunction := [
  ⟨"toString", .booleanToText, 0⟩,
  ⟨"valueOf", .booleanValue, 0⟩]

def dateStatics : List LibraryFunction := [
  ⟨"now", .dateNow, 0⟩,
  ⟨"parse", .dateParse, 1⟩,
  ⟨"UTC", .dateUTC, 7⟩]

/-- A method under its local and its universal name. -/
def twice (kind part : String) (method : DateMethod) (arity : Nat) : List LibraryFunction := [
  ⟨kind ++ part, .date method, arity⟩,
  ⟨kind ++ "UTC" ++ part, .date method, arity⟩]

/-- How many parts a setter takes, from the first on. -/
def settableParts : List (String × DatePart × Nat) := [
  ("FullYear", .year, 3),
  ("Month", .month, 2),
  ("Date", .day, 1),
  ("Hours", .hours, 4),
  ("Minutes", .minutes, 3),
  ("Seconds", .seconds, 2),
  ("Milliseconds", .milliseconds, 1)]

def readableParts : List (String × DateMethod) := [
  ("FullYear", .getPart .year),
  ("Month", .getPart .month),
  ("Date", .getPart .day),
  ("Day", .getWeekday),
  ("Hours", .getPart .hours),
  ("Minutes", .getPart .minutes),
  ("Seconds", .getPart .seconds),
  ("Milliseconds", .getPart .milliseconds)]

def dateForms : List (String × DateForm) := [
  ("toString", .full),
  ("toDateString", .date),
  ("toTimeString", .time),
  ("toISOString", .iso),
  ("toUTCString", .utc),
  ("toGMTString", .utc),
  ("toLocaleString", .locale),
  ("toLocaleDateString", .localeDate),
  ("toLocaleTimeString", .localeTime)]

def dateMethods : List LibraryFunction :=
  [⟨"getTime", .date .getTime, 0⟩,
    ⟨"valueOf", .date .getTime, 0⟩,
    ⟨"getTimezoneOffset", .date .getTimezoneOffset, 0⟩]
  ++ readableParts.flatMap (fun (part, method) => twice "get" part method 0)
  ++ [⟨"getYear", .date .getYear, 0⟩, ⟨"setTime", .date .setTime, 1⟩]
  ++ settableParts.flatMap (fun (part, first, count) => twice "set" part (.setParts first count) count)
  ++ dateForms.map fun (name, form) => ⟨name, .date (.toText form), 0⟩

def mathFunctions : List LibraryFunction :=
  [("abs", .abs), ("acos", .acos), ("asin", .asin), ("atan", .atan), ("ceil", .ceil),
    ("cos", .cos), ("exp", .exp), ("floor", .floor), ("log", .log), ("round", .round),
    ("sin", .sin), ("sqrt", .sqrt), ("tan", .tan)].map (fun (name, f) => ⟨name, .math f, 1⟩)
  ++ [("atan2", .atan2), ("pow", .pow), ("max", .max), ("min", .min)].map
    (fun (name, f) => ⟨name, .math f, 2⟩)
  ++ [⟨"random", .math .random, 0⟩]

def globalFunctions : List LibraryFunction := [
  ⟨"isNaN", .global .isNaN, 1⟩,
  ⟨"isFinite", .global .isFinite, 1⟩,
  ⟨"parseInt", .global .parseInt, 2⟩,
  ⟨"parseFloat", .global .parseFloat, 1⟩,
  ⟨"escape", .global .escape, 1⟩,
  ⟨"unescape", .global .unescape, 1⟩,
  ⟨"encodeURI", .global .encodeURI, 1⟩,
  ⟨"encodeURIComponent", .global .encodeURIComponent, 1⟩,
  ⟨"decodeURI", .global .decodeURI, 1⟩,
  ⟨"decodeURIComponent", .global .decodeURIComponent, 1⟩]

/-! ### Constants -/

def greatestDouble : Float := Float.ofBits 0x7fefffffffffffff

def leastDouble : Float := Float.ofBits 1

def numberConstants : List (String × Float) := [
  ("MAX_VALUE", greatestDouble),
  ("MIN_VALUE", leastDouble),
  ("NaN", Double.nan),
  ("NEGATIVE_INFINITY", -Double.infinity),
  ("POSITIVE_INFINITY", Double.infinity)]

def mathConstants : List (String × Float) := [
  ("E", 2.718281828459045),
  ("LN2", 0.6931471805599453),
  ("LN10", 2.302585092994046),
  ("LOG2E", 1.4426950408889634),
  ("LOG10E", 0.4342944819032518),
  ("PI", 3.141592653589793),
  ("SQRT1_2", 0.7071067811865476),
  ("SQRT2", 1.4142135623730951)]

/-! ### Installing -/

open Store

def installFunction (target : ObjectId) (f : LibraryFunction) : Edit Unit := do
  let id ← allocNative f.name (.builtin f.code) f.arity
  defineHidden target f.name (.object id)

def installFunctions (target : ObjectId) (fs : List LibraryFunction) : Edit Unit :=
  fs.forM (installFunction target)

def installConstants (target : ObjectId) (constants : List (String × Float)) : Edit Unit :=
  constants.forM fun (name, n) => defineFixed target name (.number n)

/-- The two functions that call their receiver. -/
def installCallers : Edit Unit := do
  let apply ← allocFunction .apply 2
  let call ← allocFunction .call 1
  defineHidden Intrinsic.functionPrototype "apply" (.object apply)
  defineHidden Intrinsic.functionPrototype "call" (.object call)

def installMath : Edit Unit := do
  let math ← allocPlain
  defineHidden Intrinsic.globalScope "Math" (.object math)
  installConstants math mathConstants
  installFunctions math mathFunctions

/-- The names of the global scope that stand for values. -/
def installGlobalValues : Edit Unit := do
  let globalScope := Intrinsic.globalScope
  defineFixed globalScope "Infinity" (.number Double.infinity)
  defineFixed globalScope "NaN" (.number Double.nan)
  defineFixed globalScope "undefined" .undefined
  defineHidden globalScope "self" (.object globalScope)

def installEval : Run Unit := do
  let allowed ← Run.ask fun s => s.config.allowEval
  if allowed then
    let eval ← allocFunction .eval 1
    defineHidden Intrinsic.globalScope "eval" (.object eval)

def install : Run Unit := do
  pairs.forM fun p => defineHidden Intrinsic.globalScope p.name (.object p.constructor)
  installCallers
  installFunctions Intrinsic.functionPrototype functionMethods
  installFunctions Intrinsic.objectPrototype objectMethods
  installFunctions Intrinsic.arrayPrototype arrayMethods
  installConstants Intrinsic.number numberConstants
  installFunctions Intrinsic.numberPrototype numberMethods
  installFunctions Intrinsic.stringPrototype stringMethods
  installFunctions Intrinsic.booleanPrototype booleanMethods
  installFunctions Intrinsic.date dateStatics
  installFunctions Intrinsic.datePrototype dateMethods
  installMath
  installGlobalValues
  installFunctions Intrinsic.globalScope globalFunctions
  installEval

end Library

namespace Store

/-- The store with the fixed objects alone. -/
def bare (config : Config) (reader : Option SourceReader) (clock : Float) (seed : UInt64) : Store where
  objects := Library.fixedObjects.toArray
  config := config
  reader := reader
  evalDepth := 0
  outerFrames := 0
  clock := clock
  -- the generator never leaves zero
  seed := seed ||| 1
  journal := #[]

/-- The store that a script starts with. -/
def create (config : Config) (reader : Option SourceReader) (clock : Float) (seed : UInt64) :
    Store :=
  (Library.install (bare config reader clock seed)).2

end Store

end Stepwise
