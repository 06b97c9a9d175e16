/-
The names that a loop over an object visits.

The objects of the chain are looked into one after the other, when the names of the one
before have run out; a name that a nearer object has, shown or not, is passed over, and
so is one that is gone when its turn comes.
-/
import Stepwise.Machine.Frame

namespace Stepwise

namespace Enumeration

/-- The enumeration of a value; a primitive other than a text has no names. -/
def start (s : Heap) (target : Reference) (v : Value) : Enumeration :=
  match v with
  | .string text =>
    let indices := (List.range (Units.length text.toList)).map Key.ofNat
    ⟨target, indices.map fun key => (none, key), s.chain v, indices⟩
  | .object _ => ⟨target, [], s.chain v, []⟩
  | _ => ⟨target, [], [], []⟩

/-- Is a queued key there still? -/
def isPresent (s : Heap) (queued : Option ObjectId × Key) : Bool :=
  queued.1.all fun owner => (s.object? owner).any fun o => o.properties.contains queued.2

/-- The properties of an object under keys not seen before. -/
def unseen (s : Heap) (seen : List Key) (id : ObjectId) : List (Key × Property) :=
  match s.object? id with
  | some o => o.properties.toList.filter fun (key, _) => !seen.contains key
  | none => []

/-- The keys to queue from an object. -/
def queueOf (s : Heap) (seen : List Key) (id : ObjectId) : List (Option ObjectId × Key) :=
  ((unseen s seen id).filter fun (_, p) => p.enumerable).map fun (key, _) => (some id, key)

/-- The next key, from the queue or from the objects still to come. -/
def nextFrom (s : Heap) (target : Reference) (queue : List (Option ObjectId × Key))
    (chain : List ObjectId) (seen : List Key) : Option (Key × Enumeration) :=
  match queue.dropWhile fun queued => !isPresent s queued with
  | (_, key) :: rest => some (key, ⟨target, rest, chain, seen⟩)
  | [] =>
    match chain with
    | [] => none
    | id :: chain =>
      nextFrom s target (queueOf s seen id) chain (seen ++ (unseen s seen id).map Prod.fst)

/-- The next key to visit, and what comes after it. -/
def next? (s : Heap) (names : Enumeration) : Option (Key × Enumeration) :=
  nextFrom s names.target names.queue names.chain names.seen

end Enumeration

end Stepwise
