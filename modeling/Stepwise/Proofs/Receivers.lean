/-
Receivers that are filled.

A library function is not told whether `new` has called it.  The constructors of arrays and of
objects look at the receiver instead: what `new` makes for them has no properties and is of no
kind of its own (`beginCall_makes`), and such a receiver they fill where it stands.  Any other
receiver they leave alone, with everything else that is there, and what they return is new.

But an object need not be fresh to be empty.  An empty array of a script is as blank as one that
`new` has just made, and when its own constructor is called on it, it is filled as well.
-/
import Stepwise.Proofs.Constructions
import Stepwise.Proofs.Growing
import Stepwise.Proofs.Splices

namespace Stepwise

open Store

/-! ### Blank objects -/

/-- The object is as `new` makes it for a constructor. -/
structure Object.IsBlank (constructor : ObjectId) (o : Object) : Prop where
  parent : o.parent = some constructor
  empty : ∀ key, o.properties.get? key = none
  kind : o.kind = .ordinary ∨ o.kind = .array 0

theorem Properties.isEmpty_iff (ps : Properties) : ps.isEmpty = true ↔ ∀ key, ps.get? key = none := by
  rw [isEmpty, Bool.and_eq_true, Std.TreeMap.isEmpty_iff_forall_not_mem, List.isEmpty_iff]
  constructor
  · rintro ⟨helements, hnamed⟩ key
    cases key with
    | index i => exact Std.TreeMap.getElem?_eq_none (helements i)
    | name name => rw [get?, hnamed, List.lookup_nil]
  · intro hnone
    constructor
    · intro i hi
      have hthere := Std.TreeMap.mem_iff_isSome_getElem?.mp hi
      rw [show ps.elements[i]? = none from hnone (.index i)] at hthere
      cases hthere
    · refine List.eq_nil_iff_forall_not_mem.mpr fun entry hmem => ?_
      have hname := hnone (.name entry.1)
      rw [get?, List.lookup_eq_none_iff] at hname
      simpa using hname entry hmem

namespace Heap

variable {s : Heap} {constructor : ObjectId}

theorem isBlankInstance_object {id : ObjectId} {o : Object} (ho : s.object? id = some o) :
    s.isBlankInstance (.object id) constructor = true ↔ o.IsBlank constructor := by
  have hobject : s.objectOf? (.object id) = some o := ho
  rw [isBlankInstance, hobject, Option.any_some, Bool.and_eq_true, Bool.and_eq_true, beq_iff_eq,
    Properties.isEmpty_iff]
  constructor
  · rintro ⟨⟨hparent, hempty⟩, hkind⟩
    refine ⟨hparent, hempty, ?_⟩
    split at hkind
    · rename_i heq
      exact .inl heq
    · rename_i heq
      exact .inr heq
    · cases hkind
  · rintro ⟨hparent, hempty, hkind | hkind⟩
    · exact ⟨⟨hparent, hempty⟩, by rw [hkind]⟩
    · exact ⟨⟨hparent, hempty⟩, by rw [hkind]; rfl⟩

theorem isBlankInstance_iff {receiver : Value} : s.isBlankInstance receiver constructor = true ↔
    ∃ id o, receiver = .object id ∧ s.object? id = some o ∧ o.IsBlank constructor := by
  constructor
  · intro hblank
    cases receiver with
    | object id =>
        cases ho : s.object? id with
        | none =>
            have hobject : s.objectOf? (.object id) = none := ho
            rw [isBlankInstance, hobject] at hblank
            cases hblank
        | some o => exact ⟨id, o, rfl, ho, (isBlankInstance_object ho).mp hblank⟩
    | _ => cases hblank
  · rintro ⟨id, o, rfl, ho, hblank⟩
    exact (isBlankInstance_object ho).mpr hblank

/-! ### New objects -/

/-- An object that was not there before, and what was there is as it was. -/
structure MakesNew (s : Heap) (new : ObjectId) (o : Object) (s' : Heap) : Prop where
  isNew : s.object? new = none
  made : s'.object? new = some o
  preserves : s.Preserves s'

theorem makesNew_push (s : Heap) (o : Object) :
    s.MakesNew ⟨s.objects.size⟩ o { s with objects := s.objects.push o } where
  isNew := Array.getElem?_eq_none (Nat.le_refl _)
  made := by rw [object?_push, if_pos rfl]
  preserves _ _ hold := object?_push_of_eq_some hold o

/-- The new object is changed before anything else happens. -/
theorem MakesNew.withObject {new : ObjectId} {o : Object} {s' : Heap} (h : s.MakesNew new o s')
    (o' : Object) : s.MakesNew new o' (s'.withObject new o') where
  isNew := h.isNew
  made := object?_withObject h.made o'
  preserves id old hold := by
    rw [object?_withObject_of_ne (ne_of_object? hold h.isNew)]
    exact h.preserves id old hold

theorem instanceKind_isBlank (s : Heap) (constructor : ObjectId) :
    (Object.new (some constructor) (s.instanceKind (some constructor))).IsBlank constructor where
  parent := rfl
  empty := Properties.get?_empty
  kind := by
    show s.instanceKind (some constructor) = .ordinary ∨ s.instanceKind (some constructor) = .array 0
    unfold instanceKind
    split
    · exact .inr rfl
    · exact .inl rfl

end Heap

namespace Store

theorem allocInstance_makes (s : Heap) (constructor : ObjectId) :
    ∃ new o s', allocInstance (some constructor) s = (.ok new, s') ∧ s.MakesNew new o s' ∧ o.IsBlank constructor :=
  ⟨_, _, _, rfl, s.makesNew_push _, s.instanceKind_isBlank constructor⟩

end Store

/-- What `new` makes for a constructor is blank, and it is the receiver of the call. -/
theorem beginCall_makes {s s' : Heap} {scope : ObjectId} {completion : Option Completion}
    {call : PendingCall} (h : beginCall scope true completion s = (.ok call, s')) :
    ∃ new o, call.receiver = .object new ∧ call.constructed = some call.receiver ∧
      s.MakesNew new o s' ∧ o.IsBlank call.callee := by
  obtain ⟨made, hmakes⟩ := (beginCall_eq_ok h).2 rfl
  refine ⟨made, _, hmakes.receiver, ?_, ⟨hmakes.fresh, hmakes.object, hmakes.kept⟩,
    s.instanceKind_isBlank call.callee⟩
  rw [hmakes.constructed, hmakes.receiver]

/-! ### What arguments make of an object -/

/-- The only argument is a number that no array has as its length. -/
def Sequence.IsRefused (args : List Value) : Prop := ∃ n, args = [.number n] ∧ Double.toIndex? n = none

/-- What arguments make of an empty object: one number gives an array its length, and other
arguments are its elements. -/
structure Object.FilledWith (o : Object) (args : List Value) (o' : Object) : Prop where
  parent : o'.parent = o.parent
  isArray : o'.isArray = o.isArray
  resized : ∀ n, args = [.number n] → ∃ k, Double.toIndex? n = some k ∧ o' = o.resize k
  listed : (∀ n, args ≠ [.number n]) → args.length < lengthBound → o.kind = .array 0 →
    (∀ key, o.properties.get? key = none) → o.Extended 0 args o'

namespace Object

variable {o : Object}

theorem parent_resize (o : Object) (length : Nat) : (o.resize length).parent = o.parent := by
  unfold resize
  split <;> rfl

theorem isArray_resize (o : Object) (length : Nat) : (o.resize length).isArray = o.isArray := by
  rw [isArray, arrayLength?_resize, Option.isSome_map, isArray]

theorem isArray_define (o : Object) (key : Key) (p : Property) : (o.define key p).isArray = o.isArray := by
  unfold define
  split
  · dsimp only
    split <;> rfl
  · rw [isArray, arrayLength?_add, Option.isSome_map, isArray]

/-- The object with values defined at indices. -/
def withEntries (o : Object) (entries : List (Value × Nat)) : Object :=
  entries.foldl (fun o (v, i) => o.define (.ofNat i) (.plain v)) o

theorem withEntries_parent (o : Object) (entries : List (Value × Nat)) :
    (o.withEntries entries).parent = o.parent := by
  induction entries generalizing o with
  | nil => rfl
  | cons entry rest ih => exact (ih _).trans (define_parent _)

theorem withEntries_isArray (o : Object) (entries : List (Value × Nat)) :
    (o.withEntries entries).isArray = o.isArray := by
  induction entries generalizing o with
  | nil => rfl
  | cons entry rest ih => exact (ih _).trans (isArray_define _ _ _)

theorem InBounds.of_empty (h : ∀ key, o.properties.get? key = none) : o.InBounds := by
  intro i hi
  rw [Properties.contains, h] at hi
  cases hi

/-- Values that are defined one behind the other extend an array. -/
theorem withEntries_extended {n : Nat} {values : List Value} (hkind : o.kind = .array n) (hbounds : o.InBounds)
    (hfits : n + values.length < lengthBound) : o.Extended n values (o.withEntries (values.zipIdx n)) := by
  induction values generalizing o n with
  | nil => exact .nil hkind
  | cons v rest ih =>
      rw [List.length_cons] at hfits
      have hindex : n < indexBound := lt_indexBound (Nat.lt_succ_self n) (by omega)
      have hnone := hbounds.get?_eq_none hkind (Nat.le_refl n)
      have hdefined : o.define (.ofNat n) (.plain v) = o.put (.index n) v := by
        rw [Key.ofNat_of_lt hindex, define_of_none hnone, put_of_none hnone]
      have hgrown : (o.put (.index n) v).kind = .array (n + 1) := by
        rw [put_of_none hnone]
        simp [add, kindWith, hkind]
      refine .cons hkind hbounds ?_
      show (o.put (.index n) v).Extended (n + 1) rest
        (withEntries (o.define (.ofNat n) (.plain v)) (rest.zipIdx (n + 1)))
      rw [hdefined]
      exact ih hgrown (hbounds.put (show Key.IsProper (.index n) from hindex) v) (by omega)

end Object

namespace Sequence

variable {s : Heap} {id : ObjectId} {o : Object}

theorem forM_define (ho : s.object? id = some o) (entries : List (Value × Nat)) :
    (entries.forM fun (v, i) => define id (.ofNat i) (.plain v)) s =
      (.ok (), s.withObject id (o.withEntries entries)) := by
  induction entries generalizing s o with
  | nil =>
      rw [Object.withEntries, List.foldl_nil, Heap.withObject_self ho]
      rfl
  | cons entry rest ih =>
      obtain ⟨v, i⟩ := entry
      have hdefine : define id (.ofNat i) (.plain v) s =
          (.ok (), s.withObject id (o.define (.ofNat i) (.plain v))) := by
        rw [← Heap.change_eq_withObject ho fun o => o.define (.ofNat i) (.plain v)]
        rfl
      have hrest := ih (Heap.object?_withObject ho (o.define (.ofNat i) (.plain v)))
      rw [Heap.withObject_withObject] at hrest
      exact (bind_of_ok hdefine).trans hrest

/-- **An object is filled in its place**, or the arguments are refused and nothing is changed. -/
theorem fill_cases (ho : s.object? id = some o) (args : List Value) :
    IsRefused args ∧ fill id args s = (.error .invalidArrayLength, s) ∨
      ∃ o', fill id args s = (.ok (), s.withObject id o') ∧ o.FilledWith args o' := by
  unfold fill
  split
  · rename_i n
    cases hlength : Double.toIndex? n with
    | none => exact .inl ⟨⟨n, rfl, hlength⟩, rfl⟩
    | some length =>
        refine .inr ⟨o.resize length, ?_, ?_⟩
        · rw [← Heap.change_eq_withObject ho fun o => o.resize length]
          rfl
        · exact {
            parent := o.parent_resize length
            isArray := o.isArray_resize length
            resized := by
              rintro m heq
              cases heq
              exact ⟨length, hlength, rfl⟩
            listed := fun hne => absurd rfl (hne n) }
  · rename_i hne
    refine .inr ⟨o.withEntries args.zipIdx, forM_define ho _, ?_⟩
    exact {
      parent := o.withEntries_parent _
      isArray := o.withEntries_isArray _
      resized := fun n heq => absurd heq (hne n)
      listed := fun _ hlength hkind hempty =>
        Object.withEntries_extended hkind (.of_empty hempty) (by rwa [Nat.zero_add]) }

/-! ### The constructors -/

/-- A blank receiver is filled. -/
theorem construct_of_blank (ho : s.object? id = some o) (hblank : o.IsBlank Intrinsic.array) (args : List Value) :
    IsRefused args ∧ construct (.object id) args s = (.error .invalidArrayLength, s) ∨
      ∃ o', construct (.object id) args s = (.ok (.object id), s.withObject id o') ∧ o.FilledWith args o' := by
  have hconstruct : construct (.object id) args s =
      (do fill id args; return .object id : Edit Value) s := by
    rw [construct, Edit.ask_bind_eq, (Heap.isBlankInstance_object ho).mpr hblank]
  rw [hconstruct]
  rcases fill_cases ho args with ⟨hrefused, hfill⟩ | ⟨o', hfill, hfilled⟩
  · exact .inl ⟨hrefused, bind_of_error hfill⟩
  · exact .inr ⟨o', bind_of_ok hfill, hfilled⟩

/-- With any other receiver, the array is a new one. -/
theorem construct_of_not_blank {receiver : Value} (hblank : s.isBlankInstance receiver Intrinsic.array = false)
    (args : List Value) :
    s.Preserves (construct receiver args s).2 ∧
      (IsRefused args ∧ (construct receiver args s).1 = .error .invalidArrayLength ∨
        ∃ new o, (construct receiver args s).1 = .ok (.object new) ∧
          s.MakesNew new o (construct receiver args s).2 ∧ o.isArray = true ∧ (arrayOf []).FilledWith args o) := by
  have hconstruct : construct receiver args s =
      (do fill ⟨s.objects.size⟩ args; return .object ⟨s.objects.size⟩ : Edit Value)
        { s with objects := s.objects.push (arrayOf []) } := by
    rw [construct, Edit.ask_bind_eq, hblank]
    rfl
  have hmakes := s.makesNew_push (arrayOf [])
  rw [hconstruct]
  rcases fill_cases hmakes.made args with ⟨hrefused, hfill⟩ | ⟨o, hfill, hfilled⟩
  · rw [bind_of_error hfill]
    exact ⟨hmakes.preserves, .inl ⟨hrefused, rfl⟩⟩
  · rw [bind_of_ok hfill]
    have hmakes' := hmakes.withObject o
    exact ⟨hmakes'.preserves, .inr ⟨_, o, rfl, hmakes', hfilled.isArray, hfilled⟩⟩

end Sequence

/-- For null and undefined an empty object is returned: a blank receiver, or a new one. -/
theorem Wrapping.object_of_nullish {args : List Value} (hnullish : (argument args 0).isNullish = true)
    (receiver : Value) (s : Heap) :
    Wrapping.object receiver args s =
      if s.isBlankInstance receiver Intrinsic.object then (.ok receiver, s)
      else (do return .object (← allocPlain) : Edit Value) s := by
  have hobject : Wrapping.object receiver args =
      (do
        let isNew ← Edit.ask fun s => s.isBlankInstance receiver Intrinsic.object
        if isNew then return receiver else return .object (← allocPlain)) := by
    unfold Wrapping.object
    cases hfirst : argument args 0 with
    | undefined => rfl
    | null => rfl
    | _ =>
        rw [hfirst] at hnullish
        cases hnullish
  rw [hobject, Edit.ask_bind_eq]
  split <;> rfl

/-- **Only blank receivers are filled.**  Called on anything else, the constructor of arrays returns a
new array or refuses its argument, that of objects returns a new object for null and undefined, and
both leave what was there as it was.  A blank receiver is filled where it stands and returned, and
nothing else is changed.  What `new` makes for them is new and blank. -/
theorem only_blanks_are_filled (s : Heap) (receiver : Value) (args : List Value) :
    let array := (NativeCode.builtin .arrayConstructor).call receiver args s
    let object := (NativeCode.builtin .objectConstructor).call receiver args s
    (s.isBlankInstance receiver Intrinsic.array = false →
      s.Preserves array.2 ∧
      (Sequence.IsRefused args ∧ array.1 = .error .invalidArrayLength ∨
        ∃ new o, array.1 = .ok (.object new) ∧ s.MakesNew new o array.2 ∧ o.isArray = true ∧
          (arrayOf []).FilledWith args o)) ∧
    (∀ id o, receiver = .object id → s.object? id = some o → o.IsBlank Intrinsic.array →
      Sequence.IsRefused args ∧ array = (.error .invalidArrayLength, s) ∨
        ∃ o', array = (.ok receiver, s.withObject id o') ∧ o.FilledWith args o') ∧
    ((argument args 0).isNullish = true →
      (s.isBlankInstance receiver Intrinsic.object = true → object = (.ok receiver, s)) ∧
      (s.isBlankInstance receiver Intrinsic.object = false →
        ∃ new o, object.1 = .ok (.object new) ∧ s.MakesNew new o object.2 ∧ o.IsBlank Intrinsic.object)) ∧
    (∀ constructor, s.isBlankInstance receiver constructor = true ↔
      ∃ id o, receiver = .object id ∧ s.object? id = some o ∧ o.IsBlank constructor) ∧
    ∀ scope completion call s', beginCall scope true completion s = (.ok call, s') →
      ∃ new o, call.receiver = .object new ∧ call.constructed = some call.receiver ∧
        s.MakesNew new o s' ∧ o.IsBlank call.callee := by
  intro array object
  refine ⟨fun hblank => Sequence.construct_of_not_blank hblank args, ?_, fun hnullish => ?_,
    fun _ => Heap.isBlankInstance_iff, fun _ _ _ _ => beginCall_makes⟩
  · rintro id o rfl ho hblank
    exact Sequence.construct_of_blank ho hblank args
  · have hobject : object = _ := Wrapping.object_of_nullish hnullish receiver s
    refine ⟨fun hblank => ?_, fun hblank => ?_⟩
    · rw [hobject, hblank]
      rfl
    · obtain ⟨new, o, s', halloc, hmakes, hempty⟩ := allocInstance_makes s Intrinsic.object
      have hplain : (do return .object (← allocPlain) : Edit Value) s = (.ok (.object new), s') :=
        bind_of_ok halloc
      rw [hobject, hblank, if_neg Bool.false_ne_true, hplain]
      exact ⟨new, o, rfl, hmakes, hempty⟩

/-! ### An empty array of a script -/

namespace Evaluator

/-- A host makes an empty array, and a global variable of it. -/
private theorem exists_empty_array : ∃ e, HostedFairly [] e ∧ ∃ id,
    e.store.own? Intrinsic.globalScope (.ofText "a") = some (.plain (.object id)) ∧
      e.store.object? id = some (arrayOf []) ∧
        ∃ o, e.store.object? Intrinsic.array = some o ∧
          o.callable? = some (.native ⟨"Array", .builtin .arrayConstructor, 1⟩) := by
  have hrealm : HostedFairly [] ⟨Store.create {} none 0 1, .idle⟩ := .realm {} none 0 1
  have huntouched := Heap.create_isUntouched {} none 0 1
  obtain ⟨g, hg, -, -⟩ := huntouched.globalScope
  obtain ⟨c, hc, hkeeps⟩ := Store.create_keeps {} none 0 1 Intrinsic.array _ rfl
  have hcallable : c.callable? = some (.native ⟨"Array", .builtin .arrayConstructor, 1⟩) := by
    rw [Object.callable?, hkeeps.function _ rfl]
  have hfree : g.properties.get? (.ofText "a") = none := (huntouched.stocked _ g hg).get?_eq_none (by decide)
  obtain ⟨e, id, he, hfresh, hnew, hkept⟩ := hrealm.exists_pushed (.newArray []) nofun rfl rfl
  obtain ⟨e', he', hglobal, hothers⟩ := he.exists_defined (hkept _ g hg) (.ofText "a")
    (p := .plain (.object id)) (Heap.knows_object.mpr (Heap.has_of_object? hnew))
  refine ⟨e', he', id, ?_, ?_, c, ?_, hcallable⟩
  · rw [Heap.own?_of_object? hglobal]
    exact Object.define_self_of_none hfree _
  · exact (hothers _ (Heap.ne_of_object? hg hfresh).symm).trans hnew
  · exact (hothers _ (by decide)).trans (hkept _ c hc)

/-- The constructor of arrays is called, without `new`, on the empty array that is the value of a
global variable.  It makes no array: it returns that one, which has another length then. -/
theorem empty_array_is_filled : ∃ e, HostedFairly [] e ∧ ∃ id function,
    e.store.own? Intrinsic.globalScope (.ofText "a") = some (.plain (.object id)) ∧
    PendingCall.resolve ⟨Intrinsic.array, .object id, none, #[.ofNat 3]⟩ 1 e.store.toHeap =
        .ok (.native function (.object id) [.ofNat 3]) ∧
      e.store.lengthAt? id = some 0 ∧
        (function.code.call (.object id) [.ofNat 3] e.store.toHeap).1 = .ok (.object id) ∧
          (function.code.call (.object id) [.ofNat 3] e.store.toHeap).2.lengthAt? id = some 3 := by
  obtain ⟨e, he, id, hvariable, hempty, c, hc, hcallable⟩ := exists_empty_array
  have hblank : (arrayOf []).IsBlank Intrinsic.array := ⟨rfl, Properties.get?_empty, .inr rfl⟩
  refine ⟨e, he, id, ⟨"Array", .builtin .arrayConstructor, 1⟩, hvariable, ?_, ?_, ?_⟩
  · rw [PendingCall.resolve, Invocation.resolve, hc, Option.bind_some, hcallable]
    rfl
  · rw [Heap.lengthAt?, hempty]
    rfl
  · rcases Sequence.construct_of_blank hempty hblank [.ofNat 3] with ⟨⟨n, heq, hrefused⟩, -⟩ | ⟨o, hrun, hfilled⟩
    · cases heq
      rw [Double.toIndex?_ofNat (by decide)] at hrefused
      cases hrefused
    · obtain ⟨k, hk, rfl⟩ := hfilled.resized _ rfl
      rw [Double.toIndex?_ofNat (by decide)] at hk
      cases hk
      have hcall : (NativeCode.builtin .arrayConstructor).call (.object id) [.ofNat 3] e.store.toHeap = _ := hrun
      rw [hcall]
      refine ⟨rfl, ?_⟩
      show Heap.lengthAt? (e.store.toHeap.withObject id _) id = some 3
      rw [Heap.lengthAt?, Heap.object?_withObject hempty]
      rfl

end Evaluator

end Stepwise
