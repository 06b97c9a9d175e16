/-
Hoisting.

Before a body runs, everything that it declares is bound in the scope that it runs in.  Here
stands what that comes to.

`Node.declarations` tells what a statement declares by recursion.  It is compared with two
other readings.  One of them takes every statement by its place, the numbers that lead down
to it (`statementAt?`), and then the order of the text is the order of the places.  The other
one is a loop with a list of pending statements (`hoistTurn`): the first of them binds what
it declares by itself, and the statements in it take its place.

What binding comes to is said for a list of declarations first (`Binds`), with the one that
comes first and the rest; a name keeps the binding that the last function of the name gives
it, since variables leave alone what they find and no function stays read-only.
-/
import Stepwise.Proofs.Arena
import Stepwise.Proofs.Chains
import Stepwise.Proofs.Grammar
import Stepwise.Proofs.Library

namespace Stepwise

/-! ### Statements in statements -/

namespace Node

/-- The statements in a statement, in the order of the text, but for those in functions. -/
def inner : Node → List Node
  | .block body => body
  | .ifStatement _ consequent alternate => consequent :: alternate.toList
  | .forStatement init _ _ body => init.toList ++ [body]
  | .forInStatement target _ body => [target, body]
  | .whileStatement _ body | .doWhileStatement _ body | .labeled _ body => [body]
  | _ => []

/-- What a statement declares by itself. -/
def ownDeclarations : Node → List Declaration
  | .variableDeclaration _ declarators => declaredVariables declarators
  | .functionDeclaration ⟨some name, params, body⟩ => [.function name ⟨some name, params, body⟩]
  | _ => []

end Node

theorem declarationsOf_append (body rest : List Node) :
    declarationsOf (body ++ rest) = declarationsOf body ++ declarationsOf rest := by
  induction body with
  | nil => rfl
  | cons node body ih => rw [List.cons_append, declarationsOf, declarationsOf, ih, List.append_assoc]

theorem declarationsOf_toList (part : Option Node) :
    declarationsOf part.toList = declarationsOfPart part := by
  cases part with
  | none => rfl
  | some node => exact List.append_nil _

/-- A statement declares what it declares by itself, and what the statements in it declare. -/
theorem Node.declarations_eq (node : Node) :
    node.declarations = node.ownDeclarations ++ declarationsOf node.inner := by
  have hone (n : Node) : declarationsOf [n] = n.declarations := List.append_nil _
  cases node with
  | functionDeclaration code =>
      obtain ⟨name, params, body⟩ := code
      cases name <;> rfl
  | variableDeclaration kind declarators => exact (List.append_nil _).symm
  | ifStatement test consequent alternate =>
      show consequent.declarations ++ declarationsOfPart alternate =
        [] ++ (consequent.declarations ++ declarationsOf alternate.toList)
      rw [declarationsOf_toList, List.nil_append]
  | forStatement init test update body =>
      show declarationsOfPart init ++ body.declarations = [] ++ declarationsOf (init.toList ++ [body])
      rw [declarationsOf_append, declarationsOf_toList, hone, List.nil_append]
  | forInStatement target object body =>
      show target.declarations ++ body.declarations = [] ++ (target.declarations ++ declarationsOf [body])
      rw [hone, List.nil_append]
  | whileStatement test body => exact (hone body).symm
  | doWhileStatement test body => exact (hone body).symm
  | labeled label body => exact (hone body).symm
  | _ => rfl

theorem declarationsOf_cons (node : Node) (rest : List Node) :
    declarationsOf (node :: rest) = node.ownDeclarations ++ declarationsOf (node.inner ++ rest) := by
  rw [declarationsOf, node.declarations_eq, declarationsOf_append, List.append_assoc]

/-- How much there is to a list of statements. -/
noncomputable def totalSize : List Node → Nat
  | [] => 0
  | node :: rest => sizeOf node + totalSize rest

theorem totalSize_append (body rest : List Node) :
    totalSize (body ++ rest) = totalSize body + totalSize rest := by
  induction body with
  | nil => simp [totalSize]
  | cons node body ih => rw [List.cons_append, totalSize, totalSize, ih, Nat.add_assoc]

private theorem totalSize_lt_sizeOf (body : List Node) : totalSize body < sizeOf body := by
  induction body with
  | nil => simp [totalSize]
  | cons node body ih =>
      simp only [totalSize, List.cons.sizeOf_spec]
      omega

/-- The statements in a statement are less than it is. -/
theorem Node.totalSize_inner (node : Node) : totalSize node.inner < sizeOf node := by
  cases node with
  | block body =>
      have := totalSize_lt_sizeOf body
      simp only [inner, block.sizeOf_spec]
      omega
  | ifStatement test consequent alternate => cases alternate <;> simp [inner, totalSize] <;> omega
  | forStatement init test update body => cases init <;> simp [inner, totalSize] <;> omega
  | _ => simp [inner, totalSize] <;> omega

/-- Taking a statement apart makes the pending ones less. -/
theorem Node.totalSize_inner_append (node : Node) (rest : List Node) :
    totalSize (node.inner ++ rest) < totalSize (node :: rest) := by
  have hinner := node.totalSize_inner
  rw [totalSize_append, totalSize]
  omega

/-! ### The loop -/

namespace Store

variable {s : Heap} {scope : ObjectId}

/-- A variable that is there is left alone. -/
theorem bindDeclaration_variable (scope : ObjectId) (name : String) (s : Heap) :
    bindDeclaration scope (.variable name) s =
      if s.hasOwn scope name then (.ok (), s) else declare scope name .undefined s := by
  show (if s.hasOwn scope name then Pure.pure () else declare scope name .undefined : Edit Unit) s = _
  split <;> rfl

theorem bindDeclaration_eq (scope : ObjectId) (d : Declaration) (s : Heap) :
    bindDeclaration scope d s = (.ok (), (bindDeclaration scope d s).2) := by
  rcases d with name | ⟨name, code⟩
  · rw [bindDeclaration_variable]
    split <;> rfl
  · rfl

/-- Bind declarations, one after the other. -/
def bindAll (scope : ObjectId) (ds : List Declaration) : Edit Unit := ds.forM (bindDeclaration scope)

theorem bindAll_cons (d : Declaration) (rest : List Declaration) (s : Heap) :
    bindAll scope (d :: rest) s = bindAll scope rest (bindDeclaration scope d s).2 := by
  show (bindDeclaration scope d >>= fun _ => bindAll scope rest : Edit Unit) s = _
  rw [bind_of_ok (bindDeclaration_eq scope d s)]

theorem bindAll_append (ds rest : List Declaration) (s : Heap) :
    bindAll scope (ds ++ rest) s = bindAll scope rest (bindAll scope ds s).2 := by
  induction ds generalizing s with
  | nil => rfl
  | cons d ds ih => rw [List.cons_append, bindAll_cons, bindAll_cons, ih]

/-- Binding never fails. -/
theorem bindAll_eq (ds : List Declaration) (s : Heap) :
    bindAll scope ds s = (.ok (), (bindAll scope ds s).2) := by
  induction ds generalizing s with
  | nil => rfl
  | cons d ds ih =>
      rw [bindAll_cons]
      exact ih _

/-- A turn of the loop that hoists: the first of the pending statements binds what it declares by
itself, and the statements in it are pending next. -/
def hoistTurn (scope : ObjectId) : List Node × Heap → (List Node × Heap) ⊕ Heap
  | ([], s) => .inr s
  | (node :: pending, s) =>
    .inl (node.inner ++ pending, (bindAll scope node.ownDeclarations s).2)

/-- **The loop ends**, with what hoisting the pending statements makes of the heap. -/
theorem hoistTurn_ends (pending : List Node) (s : Heap) :
    Loop.Ends (hoistTurn scope) (pending, s) (hoist pending scope s).2 := by
  generalize hsize : totalSize pending = size
  induction size using Nat.strongRecOn generalizing pending s with
  | _ size ih =>
      cases pending with
      | nil => exact .done rfl
      | cons node pending =>
          have hless := node.totalSize_inner_append pending
          rw [hsize] at hless
          have hrest := ih _ hless (node.inner ++ pending) (bindAll scope node.ownDeclarations s).2 rfl
          have hhoist : hoist (node :: pending) scope s =
              hoist (node.inner ++ pending) scope (bindAll scope node.ownDeclarations s).2 := by
            show bindAll scope _ s = bindAll scope _ _
            rw [declarationsOf_cons, bindAll_append]
          rw [hhoist]
          exact .again rfl hrest

end Store

/-! ### Places -/

/-- The statement at a place in a body: its number there, then the number in that statement of a
statement in it, and so on down. -/
def statementAt? (body : List Node) : (place : List Nat) → Option Node
  | [] => none
  | i :: place => body[i]?.bind fun node => if place = [] then some node else statementAt? node.inner place

/-- What a body declares, with the places of the statements that do, in the order of the text; the
first statement of the body has the number `i`. -/
def listing (i : Nat) : (body : List Node) → List (List Nat × Declaration)
  | [] => []
  | node :: rest =>
    node.ownDeclarations.map (fun d => ([i], d))
      ++ (listing 0 node.inner).map (fun entry => (i :: entry.1, entry.2))
      ++ listing (i + 1) rest
termination_by body => totalSize body
decreasing_by
  · have := node.totalSize_inner
    rw [totalSize]
    omega
  · have := node.totalSize_inner
    rw [totalSize]
    omega

/-- The listing is what a body declares. -/
theorem listing_snd (i : Nat) (body : List Node) :
    (listing i body).map Prod.snd = declarationsOf body := by
  induction i, body using listing.induct with
  | case1 i =>
      rw [listing]
      rfl
  | case2 i node rest ihInner ihRest =>
      rw [listing, declarationsOf, node.declarations_eq, List.map_append, List.map_append, ihRest,
        ← ihInner]
      simp [Function.comp_def]

theorem statementAt?_cons_zero (node : Node) (rest : List Node) (place : List Nat) :
    statementAt? (node :: rest) (0 :: place) =
      if place = [] then some node else statementAt? node.inner place := rfl

theorem statementAt?_cons_succ (node : Node) (rest : List Node) (i : Nat) (place : List Nat) :
    statementAt? (node :: rest) ((i + 1) :: place) = statementAt? rest (i :: place) := rfl

/-- What is listed stands at its place. -/
theorem mem_listing {i : Nat} {body : List Node} {place : List Nat} {d : Declaration} :
    (place, d) ∈ listing i body ↔ ∃ j below node, place = (i + j) :: below ∧
      statementAt? body (j :: below) = some node ∧ d ∈ node.ownDeclarations := by
  induction i, body using listing.induct generalizing place with
  | case1 i => simp [listing, statementAt?]
  | case2 i node rest ihInner ihRest =>
      rw [listing, List.mem_append, List.mem_append, ihRest]
      constructor
      · rintro ((h | h) | ⟨j, below, n, rfl, hn, hd⟩)
        · obtain ⟨d', hd, heq⟩ := List.mem_map.mp h
          cases heq
          exact ⟨0, [], node, rfl, rfl, hd⟩
        · obtain ⟨⟨place', d'⟩, hmem, heq⟩ := List.mem_map.mp h
          cases heq
          obtain ⟨j, below, n, rfl, hn, hd⟩ := ihInner.mp hmem
          refine ⟨0, (0 + j) :: below, n, rfl, ?_, hd⟩
          rw [statementAt?_cons_zero, if_neg nofun, Nat.zero_add]
          exact hn
        · refine ⟨j + 1, below, n, by rw [Nat.add_assoc, Nat.add_comm 1 j], ?_, hd⟩
          rw [statementAt?_cons_succ]
          exact hn
      · rintro ⟨j, below, n, rfl, hn, hd⟩
        cases j with
        | zero =>
            rw [statementAt?_cons_zero] at hn
            by_cases hbelow : below = []
            · subst hbelow
              rw [if_pos rfl] at hn
              cases hn
              exact .inl (.inl (List.mem_map.mpr ⟨d, hd, rfl⟩))
            · rw [if_neg hbelow] at hn
              obtain ⟨k, below, rfl⟩ := List.exists_cons_of_ne_nil hbelow
              refine .inl (.inr (List.mem_map.mpr ⟨(k :: below, d), ?_, rfl⟩))
              exact ihInner.mpr ⟨k, below, n, by rw [Nat.zero_add], hn, hd⟩
        | succ j =>
            rw [statementAt?_cons_succ] at hn
            exact .inr ⟨j, below, n, by rw [Nat.add_assoc, Nat.add_comm 1 j], hn, hd⟩

/-- One place comes before another one in the text. -/
def Before (place place' : List Nat) : Prop := List.Lex (fun i j => i < j) place place'

/-- The listing goes by the places. -/
theorem listing_pairwise (i : Nat) (body : List Node) :
    (listing i body).Pairwise fun a b => a.1 = b.1 ∨ Before a.1 b.1 := by
  induction i, body using listing.induct with
  | case1 i =>
      rw [listing]
      exact .nil
  | case2 i node rest ihInner ihRest =>
      rw [listing]
      refine List.pairwise_append.mpr ⟨List.pairwise_append.mpr ⟨?_, ?_, ?_⟩, ihRest, ?_⟩
      · -- Of one statement: all at its place.
        refine List.pairwise_map.mpr (List.pairwise_of_forall ?_)
        exact fun _ _ => .inl rfl
      · refine List.pairwise_map.mpr (ihInner.imp fun {a b} h => ?_)
        rcases h with h | h
        · exact .inl (congrArg (i :: ·) h)
        · exact .inr (.cons h)
      · intro a ha b hb
        obtain ⟨d, -, rfl⟩ := List.mem_map.mp ha
        obtain ⟨⟨place, d'⟩, hmem, rfl⟩ := List.mem_map.mp hb
        obtain ⟨j, below, n, rfl, -, -⟩ := mem_listing.mp hmem
        exact .inr (.cons .nil)
      · -- What stands in the statement comes before all that follows it.
        intro a ha b hb
        obtain ⟨place, d⟩ := b
        obtain ⟨j, below, n, rfl, -, -⟩ := mem_listing.mp hb
        have hlt : i < i + 1 + j := by omega
        rcases List.mem_append.mp ha with ha | ha
        · obtain ⟨d, -, rfl⟩ := List.mem_map.mp ha
          exact .inr (.rel hlt)
        · obtain ⟨entry, -, rfl⟩ := List.mem_map.mp ha
          exact .inr (.rel hlt)

/-! ### What a body declares -/

/-- A variable declaration of the body has a declarator of the name. -/
def DeclaresVariable (body : List Node) (name : String) : Prop :=
  ∃ place kind declarators init, statementAt? body place = some (.variableDeclaration kind declarators) ∧
    .variableDeclarator name init ∈ declarators

/-- A function of the name is declared at a place of the body. -/
def DeclaresFunctionAt (body : List Node) (place : List Nat) (name : String) (code : FunctionCode) :
    Prop :=
  statementAt? body place = some (.functionDeclaration code) ∧ code.name = some name

def DeclaresFunction (body : List Node) (name : String) : Prop :=
  ∃ place code, DeclaresFunctionAt body place name code

/-- The last function of the name that the body declares. -/
def DeclaresLast (body : List Node) (name : String) (code : FunctionCode) : Prop :=
  ∃ place, DeclaresFunctionAt body place name code ∧
    ∀ place' code', DeclaresFunctionAt body place' name code' → place' = place ∨ Before place' place

theorem mem_ownDeclarations_variable {node : Node} {name : String} :
    .variable name ∈ node.ownDeclarations ↔ ∃ kind declarators init,
      node = .variableDeclaration kind declarators ∧ .variableDeclarator name init ∈ declarators := by
  constructor
  · intro h
    cases node with
    | variableDeclaration kind declarators =>
        obtain ⟨n, hn, hname⟩ := List.mem_filterMap.mp h
        cases n with
        | variableDeclarator name' init =>
            cases hname
            exact ⟨kind, declarators, init, rfl, hn⟩
        | _ => cases hname
    | functionDeclaration code =>
        obtain ⟨name?, params, body⟩ := code
        cases name? with
        | none => cases h
        | some name' => cases List.mem_singleton.mp h
    | _ => cases h
  · rintro ⟨kind, declarators, init, rfl, h⟩
    exact List.mem_filterMap.mpr ⟨_, h, rfl⟩

theorem mem_ownDeclarations_function {node : Node} {name : String} {code : FunctionCode} :
    .function name code ∈ node.ownDeclarations ↔
      node = .functionDeclaration code ∧ code.name = some name := by
  constructor
  · intro h
    cases node with
    | variableDeclaration kind declarators =>
        obtain ⟨n, -, hname⟩ := List.mem_filterMap.mp h
        cases n <;> cases hname
    | functionDeclaration code' =>
        obtain ⟨name?, params, body⟩ := code'
        cases name? with
        | none => cases h
        | some name' =>
            cases List.mem_singleton.mp h
            exact ⟨rfl, rfl⟩
    | _ => cases h
  · rintro ⟨rfl, hname⟩
    obtain ⟨name?, params, body⟩ := code
    cases hname
    exact List.mem_singleton.mpr rfl

/-- What is declared is declared at some place. -/
theorem mem_declarationsOf {body : List Node} {d : Declaration} :
    d ∈ declarationsOf body ↔
      ∃ place node, statementAt? body place = some node ∧ d ∈ node.ownDeclarations := by
  rw [← listing_snd 0, List.mem_map]
  constructor
  · rintro ⟨⟨place, d⟩, hmem, rfl⟩
    obtain ⟨j, below, node, -, hnode, hd⟩ := mem_listing.mp hmem
    exact ⟨_, node, hnode, hd⟩
  · rintro ⟨place, node, hnode, hd⟩
    cases place with
    | nil => cases hnode
    | cons j below => exact ⟨(j :: below, d), mem_listing.mpr ⟨j, below, node, by rw [Nat.zero_add], hnode, hd⟩, rfl⟩

theorem mem_declarationsOf_variable {body : List Node} {name : String} :
    .variable name ∈ declarationsOf body ↔ DeclaresVariable body name := by
  rw [mem_declarationsOf]
  constructor
  · rintro ⟨place, node, hnode, hd⟩
    obtain ⟨kind, declarators, init, rfl, hmem⟩ := mem_ownDeclarations_variable.mp hd
    exact ⟨place, kind, declarators, init, hnode, hmem⟩
  · rintro ⟨place, kind, declarators, init, hnode, hmem⟩
    exact ⟨place, _, hnode, mem_ownDeclarations_variable.mpr ⟨kind, declarators, init, rfl, hmem⟩⟩

theorem mem_declarationsOf_function {body : List Node} {name : String} {code : FunctionCode} :
    .function name code ∈ declarationsOf body ↔ ∃ place, DeclaresFunctionAt body place name code := by
  rw [mem_declarationsOf]
  refine exists_congr fun place => ⟨?_, ?_⟩
  · rintro ⟨node, hnode, hd⟩
    obtain ⟨rfl, hname⟩ := mem_ownDeclarations_function.mp hd
    exact ⟨hnode, hname⟩
  · rintro ⟨hnode, hname⟩
    exact ⟨_, hnode, mem_ownDeclarations_function.mpr ⟨rfl, hname⟩⟩

theorem DeclaresFunction.of_mem {body : List Node} {name : String} {code : FunctionCode}
    (h : .function name code ∈ declarationsOf body) : DeclaresFunction body name := by
  obtain ⟨place, hplace⟩ := mem_declarationsOf_function.mp h
  exact ⟨place, code, hplace⟩

private theorem exists_last_mem {α : Type} {p : α → Prop} {l : List α} (h : ∃ x ∈ l, p x) :
    ∃ before x after, l = before ++ x :: after ∧ p x ∧ ∀ y ∈ after, ¬p y := by
  induction l with
  | nil =>
      obtain ⟨x, hx, -⟩ := h
      cases hx
  | cons a l ih =>
      by_cases hlater : ∃ x ∈ l, p x
      · obtain ⟨before, x, after, rfl, hx, hafter⟩ := ih hlater
        exact ⟨a :: before, x, after, rfl, hx, hafter⟩
      · obtain ⟨x, hx, hpx⟩ := h
        rcases List.mem_cons.mp hx with rfl | hx
        · exact ⟨[], x, l, rfl, hpx, fun y hy hpy => hlater ⟨y, hy, hpy⟩⟩
        · exact absurd ⟨x, hx, hpx⟩ hlater

/-- Of the functions of a name, one is declared last, by its place and in the list. -/
theorem DeclaresFunction.exists_last {body : List Node} {name : String} (h : DeclaresFunction body name) :
    ∃ last before after, declarationsOf body = before ++ .function name last :: after ∧
      (∀ code', .function name code' ∉ after) ∧ DeclaresLast body name last := by
  have hlisted {place : List Nat} {code : FunctionCode} :
      DeclaresFunctionAt body place name code ↔ (place, .function name code) ∈ listing 0 body := by
    rw [mem_listing]
    constructor
    · rintro ⟨hnode, hname⟩
      cases place with
      | nil => cases hnode
      | cons j below =>
          exact ⟨j, below, _, by rw [Nat.zero_add], hnode, mem_ownDeclarations_function.mpr ⟨rfl, hname⟩⟩
    · rintro ⟨j, below, node, rfl, hnode, hd⟩
      obtain ⟨rfl, hname⟩ := mem_ownDeclarations_function.mp hd
      rw [Nat.zero_add]
      exact ⟨hnode, hname⟩
  obtain ⟨place, code, h⟩ := h
  obtain ⟨before, ⟨lastPlace, d⟩, after, hsplit, ⟨last, hd⟩, hafter⟩ :=
    exists_last_mem (p := fun entry => ∃ code, entry.2 = .function name code)
      ⟨_, hlisted.mp h, code, rfl⟩
  obtain rfl : d = .function name last := hd
  have hnoneAfter : ∀ code', .function name code' ∉ after.map Prod.snd := by
    intro code' hmem
    obtain ⟨entry, hentry, heq⟩ := List.mem_map.mp hmem
    exact hafter entry hentry ⟨code', heq⟩
  refine ⟨last, before.map Prod.snd, after.map Prod.snd, ?_, hnoneAfter, lastPlace, ?_, ?_⟩
  · rw [← listing_snd 0, hsplit, List.map_append, List.map_cons]
  · exact hlisted.mpr (by rw [hsplit]; simp)
  · intro place' code' h'
    have hmem := hlisted.mp h'
    have hordered := listing_pairwise 0 body
    rw [hsplit] at hmem hordered
    rcases List.mem_append.mp hmem with hmem | hmem
    · exact (List.pairwise_append.mp hordered).2.2 _ hmem _ List.mem_cons_self
    · rcases List.mem_cons.mp hmem with heq | hmem
      · exact .inl (congrArg Prod.fst heq)
      · exact absurd ⟨code', rfl⟩ (hafter _ hmem)

/-! ### Binding -/

/-- The key of the variable that is declared. -/
def Declaration.key : Declaration → Key
  | .variable name => .ofText name
  | .function name _ => .ofText name

/-- The keys of what is declared are those of the names that the body declares. -/
theorem declares_iff {body : List Node} {key : Key} :
    (∃ d ∈ declarationsOf body, d.key = key) ↔
      ∃ name, (DeclaresVariable body name ∨ DeclaresFunction body name) ∧ key = .ofText name := by
  constructor
  · rintro ⟨d, hd, rfl⟩
    rcases d with name | ⟨name, code⟩
    · exact ⟨name, .inl (mem_declarationsOf_variable.mp hd), rfl⟩
    · exact ⟨name, .inr (.of_mem hd), rfl⟩
  · rintro ⟨name, hvariable | ⟨place, code, hplace⟩, rfl⟩
    · exact ⟨_, mem_declarationsOf_variable.mpr hvariable, rfl⟩
    · exact ⟨_, mem_declarationsOf_function.mpr ⟨place, hplace⟩, rfl⟩

namespace Object

variable {o : Object} {key : Key}

theorem define_of_none (hnone : o.properties.get? key = none) (p : Property) :
    o.define key p = o.add key p := by
  unfold define
  rw [hnone]

theorem define_of_readonly {old : Property} (hold : o.properties.get? key = some old)
    (hreadonly : old.readonly = true) (p : Property) : o.define key p = o := by
  unfold define
  rw [hold]
  exact if_pos hreadonly

theorem define_of_writable {old : Property} (hold : o.properties.get? key = some old)
    (hwritable : old.readonly = false) (p : Property) :
    o.define key p = { o with
      properties := o.properties.insert key ⟨p.value, p.readonly, old.enumerable && p.enumerable⟩ } := by
  unfold define
  rw [hold]
  exact if_neg (by simp [hwritable])

/-- A definition is about one key, and a scope stays a scope. -/
theorem define_of_ne {key' : Key} (hne : key' ≠ key) (p : Property) :
    (o.define key p).properties.get? key' = o.properties.get? key' := by
  have hinsert (q : Property) : (o.properties.insert key q).get? key' = o.properties.get? key' := by
    rw [Properties.get?_insert, if_neg hne.symm]
  cases hold : o.properties.get? key with
  | none =>
      rw [define_of_none hold]
      exact hinsert p
  | some old =>
      cases hreadonly : old.readonly with
      | true => rw [define_of_readonly hold hreadonly]
      | false =>
          rw [define_of_writable hold hreadonly]
          exact hinsert _

theorem define_parent (p : Property) : (o.define key p).parent = o.parent := by
  unfold define
  split
  · split <;> rfl
  · rfl

theorem define_kind_of_scope {outer : Option ObjectId} (hkind : o.kind = .scope outer) (p : Property) :
    (o.define key p).kind = o.kind := by
  have hgrown : o.kindWith key = o.kind := by
    unfold kindWith
    rw [hkind]
  unfold define
  split
  · split <;> rfl
  · exact hgrown

/-- What is defined is there, where nothing read-only was. -/
theorem define_self (hwritable : ∀ p, o.properties.get? key = some p → p.readonly = false) (v : Value) :
    ∃ p, (o.define key (.plain v)).properties.get? key = some p ∧ p.value = v ∧ p.readonly = false ∧
      (o.properties.get? key = none → p = .plain v) := by
  have hinsert (q : Property) : (o.properties.insert key q).get? key = some q := by
    rw [Properties.get?_insert, if_pos rfl]
  cases hold : o.properties.get? key with
  | none =>
      rw [define_of_none hold]
      exact ⟨.plain v, hinsert _, rfl, rfl, fun _ => rfl⟩
  | some old =>
      rw [define_of_writable hold (hwritable old hold)]
      exact ⟨_, hinsert _, rfl, rfl, nofun⟩

theorem define_self_of_none (hnone : o.properties.get? key = none) (p : Property) :
    (o.define key p).properties.get? key = some p := by
  rw [define_of_none hnone, add, Properties.get?_insert, if_pos rfl]

theorem contains_define_self (o : Object) (key : Key) (p : Property) :
    (o.define key p).properties.contains key = true := by
  have hinsert (q : Property) : (o.properties.insert key q).contains key = true := by
    rw [Properties.contains_insert, BEq.rfl, Bool.true_or]
  cases hold : o.properties.get? key with
  | none =>
      rw [define_of_none hold]
      exact hinsert p
  | some old =>
      cases hreadonly : old.readonly with
      | true =>
          rw [define_of_readonly hold hreadonly, Properties.contains, hold]
          rfl
      | false =>
          rw [define_of_writable hold hreadonly]
          exact hinsert _

end Object

namespace Store

/-- A function is made in a place where nothing was, and everything else stays as it was. -/
theorem allocFunction_fresh (callable : Callable) (arity : Nat) (s : Heap) :
    ∃ f s', allocFunction callable arity s = (.ok f, s') ∧ s.object? f = none ∧
      (s'.object? f).bind Object.callable? = some callable ∧
      ∀ id x, s.object? id = some x → s'.object? id = some x := by
  let made : Object := .new (some Intrinsic.function) (.function callable)
  let proto : Object := .new (some Intrinsic.object) .ordinary
  let s₁ : Heap := { s with objects := s.objects.push made }
  let f : ObjectId := ⟨s.objects.size⟩
  let p : ObjectId := ⟨s₁.objects.size⟩
  have hf : s.object? f = none := Array.getElem?_eq_none (Nat.le_refl _)
  have hp : s₁.object? p = none := Array.getElem?_eq_none (Nat.le_refl _)
  have hmade : s₁.object? f = some made := by
    rw [Heap.object?_push, if_pos rfl]
  have hne : f ≠ p := by
    intro heq
    rw [heq, hp] at hmade
    cases hmade
  refine ⟨f, _, rfl, hf, ?_, fun id x hx => ?_⟩
  · show (Heap.object? (Heap.change (Heap.change (Heap.change _ f _) p _) f _) f).bind _ = _
    rw [Heap.object?_change, if_pos rfl, Heap.object?_change, if_neg hne, Heap.object?_change, if_pos rfl,
      Heap.object?_push_of_eq_some hmade]
    simp only [Option.map_some, Option.bind_some, Object.callable?_define]
    rfl
  · have hidf : id ≠ f := by
      rintro rfl
      rw [hf] at hx
      cases hx
    have hx₁ : s₁.object? id = some x := Heap.object?_push_of_eq_some hx made
    have hidp : id ≠ p := by
      rintro rfl
      rw [hp] at hx₁
      cases hx₁
    show Heap.object? (Heap.change (Heap.change (Heap.change _ f _) p _) f _) id = some x
    rw [Heap.object?_change, if_neg hidf, Heap.object?_change, if_neg hidp, Heap.object?_change, if_neg hidf]
    exact Heap.object?_push_of_eq_some hx₁ proto

end Store

/-- What binding declarations makes of a scope, which was the object `o` and has become `o'`. -/
structure Binds (scope : ObjectId) (ds : List Declaration) (s s' : Heap) (o o' : Object) : Prop where
  before : s.object? scope = some o
  after : s'.object? scope = some o'
  kind : o'.kind = o.kind
  parent : o'.parent = o.parent
  /-- The other objects are not touched. -/
  others : ∀ id x, id ≠ scope → s.object? id = some x → s'.object? id = some x
  /-- Nothing is taken away, and nothing added but what is declared. -/
  contains : ∀ key, o'.properties.contains key = true ↔
    o.properties.contains key = true ∨ ∃ d ∈ ds, d.key = key
  /-- What is read-only stays, and so does what no function is bound to. -/
  kept : ∀ key p, o.properties.get? key = some p →
    p.readonly = true ∨ (∀ name code, .function name code ∈ ds → .ofText name ≠ key) →
    o'.properties.get? key = some p
  /-- What is new is undefined, unless a function is bound to it. -/
  undefined : ∀ key, o.properties.get? key = none → (∃ d ∈ ds, d.key = key) →
    (∀ name code, .function name code ∈ ds → .ofText name ≠ key) →
    o'.properties.get? key = some (.plain .undefined)
  /-- Nothing becomes read-only. -/
  writable : ∀ key, (∀ p, o.properties.get? key = some p → p.readonly = false) →
    ∀ p, o'.properties.get? key = some p → p.readonly = false
  /-- The last function of a name is bound to it, as a new object. -/
  function : ∀ name code before after, ds = before ++ .function name code :: after →
    (∀ code', .function name code' ∉ after) →
    (∀ p, o.properties.get? (.ofText name) = some p → p.readonly = false) →
    ∃ f p, s.object? f = none ∧
      (s'.object? f).bind Object.callable? = some (.script code scope) ∧
      o'.properties.get? (.ofText name) = some p ∧ p.value = .object f

namespace Binds

variable {scope : ObjectId} {s s' s₁ : Heap} {o o' o₁ : Object}

theorem nil (ho : s.object? scope = some o) : Binds scope [] s s o o where
  before := ho
  after := ho
  kind := rfl
  parent := rfl
  others := fun _ _ _ hx => hx
  contains := fun key => by simp
  kept := fun _ _ hp _ => hp
  undefined := fun _ _ ⟨_, hd, _⟩ _ => absurd hd List.not_mem_nil
  writable := fun _ h => h
  function := fun _ _ before after h _ _ => by cases before <;> cases h

/-- One declaration after the other. -/
theorem cons {d : Declaration} {rest : List Declaration} (hone : Binds scope [d] s s₁ o o₁)
    (hrest : Binds scope rest s₁ s' o₁ o') : Binds scope (d :: rest) s s' o o' where
  before := hone.before
  after := hrest.after
  kind := hrest.kind.trans hone.kind
  parent := hrest.parent.trans hone.parent
  others := fun id x hid hx => hrest.others id x hid (hone.others id x hid hx)
  contains := by
    intro key
    rw [hrest.contains, hone.contains]
    simp [or_assoc]
  kept := by
    intro key p hp hkept
    refine hrest.kept key p (hone.kept key p hp ?_) ?_
    · exact hkept.imp_right fun h name code hmem => h name code (by simp_all)
    · exact hkept.imp_right fun h name code hmem => h name code (List.mem_cons_of_mem _ hmem)
  undefined := by
    intro key hnone hdeclared hplain
    have hone' : ∀ name code, .function name code ∈ [d] → Key.ofText name ≠ key :=
      fun name code hmem => hplain name code (by simp_all)
    have hrest' : ∀ name code, .function name code ∈ rest → Key.ofText name ≠ key :=
      fun name code hmem => hplain name code (List.mem_cons_of_mem _ hmem)
    by_cases hkey : d.key = key
    · exact hrest.kept key _ (hone.undefined key hnone ⟨d, List.mem_singleton.mpr rfl, hkey⟩ hone') (.inr hrest')
    · have hstill : ¬o₁.properties.contains key = true := by
        rw [hone.contains]
        rintro (h | ⟨d', hd', hkey'⟩)
        · rw [Properties.contains, hnone] at h
          cases h
        · rw [List.mem_singleton.mp hd'] at hkey'
          exact hkey hkey'
      have hnone₁ : o₁.properties.get? key = none := Option.not_isSome_iff_eq_none.mp hstill
      refine hrest.undefined key hnone₁ ?_ hrest'
      obtain ⟨d', hd', hkey'⟩ := hdeclared
      rcases List.mem_cons.mp hd' with rfl | hd'
      · exact absurd hkey' hkey
      · exact ⟨d', hd', hkey'⟩
  writable := fun key h => hrest.writable key (hone.writable key h)
  function := by
    intro name code before after hsplit hlast hwritable
    cases before with
    | nil =>
        obtain ⟨rfl, rfl⟩ := List.cons.inj hsplit
        obtain ⟨f, p, hfresh, hcallable, hp, hv⟩ := hone.function name code [] [] rfl
          (fun _ => List.not_mem_nil) hwritable
        refine ⟨f, p, hfresh, ?_, ?_, hv⟩
        · obtain ⟨x, hx, -⟩ := Option.bind_eq_some_iff.mp hcallable
          have hne : f ≠ scope := by
            rintro rfl
            rw [hone.before] at hfresh
            cases hfresh
          rw [hrest.others f x hne hx, ← hx]
          exact hcallable
        · refine hrest.kept _ p hp (.inr fun name' code' hmem heq => ?_)
          rw [Key.ofText_injective heq] at hmem
          exact hlast code' hmem
    | cons d' before =>
        obtain ⟨rfl, rfl⟩ := List.cons.inj hsplit
        obtain ⟨f, p, hfresh, hcallable, hp, hv⟩ := hrest.function name code before after rfl hlast
          (hone.writable _ hwritable)
        refine ⟨f, p, ?_, hcallable, hp, hv⟩
        -- What is new to the heap in between was not there before.
        cases hx : s.object? f with
        | none => rfl
        | some x =>
            by_cases hf : f = scope
            · rw [hf, hone.after] at hfresh
              cases hfresh
            · rw [hone.others f x hf hx] at hfresh
              cases hfresh

/-- A variable that is there stays as it is. -/
theorem of_there (ho : s.object? scope = some o) {name : String}
    (hthere : o.properties.contains (.ofText name) = true) : Binds scope [.variable name] s s o o where
  before := ho
  after := ho
  kind := rfl
  parent := rfl
  others := fun _ _ _ hx => hx
  contains := by
    intro key
    constructor
    · exact .inl
    · rintro (h | ⟨d, hd, hkey⟩)
      · exact h
      · rw [← hkey, List.mem_singleton.mp hd]
        exact hthere
  kept := fun _ _ hp _ => hp
  undefined := by
    rintro key hnone ⟨d, hd, rfl⟩ -
    have hkey : d.key = .ofText name := by rw [List.mem_singleton.mp hd]; rfl
    rw [Properties.contains, ← hkey, hnone] at hthere
    cases hthere
  writable := fun _ h => h
  function := by
    intro name' code before after hsplit
    cases before with
    | nil => cases hsplit
    | cons d before => cases before <;> cases hsplit

/-- What a declaration binds, once the heap has what it is bound to. -/
theorem of_define (ho : s.object? scope = some o) {outer : Option ObjectId}
    (hkind : o.kind = .scope outer) (hkept : ∀ id x, s.object? id = some x → s₁.object? id = some x)
    {d : Declaration} {v : Value}
    (hd : (∃ name, d = .variable name ∧ v = .undefined ∧ o.properties.get? d.key = none) ∨
      ∃ name code f, d = .function name code ∧ v = .object f ∧ s.object? f = none ∧
        (s₁.object? f).bind Object.callable? = some (.script code scope)) :
    Binds scope [d] s (s₁.change scope fun o => o.define d.key (.plain v)) o (o.define d.key (.plain v)) where
  before := ho
  after := by rw [Heap.object?_change, if_pos rfl, hkept _ _ ho]; rfl
  kind := Object.define_kind_of_scope hkind _
  parent := Object.define_parent _
  others := by
    intro id x hid hx
    rw [Heap.object?_change, if_neg hid]
    exact hkept id x hx
  contains := by
    intro key
    simp only [List.mem_singleton, exists_eq_left]
    by_cases hkey : d.key = key
    · subst hkey
      simp only [or_true, iff_true]
      exact Object.contains_define_self _ _ _
    · rw [Properties.contains, Object.define_of_ne (Ne.symm hkey)]
      simp [hkey, Properties.contains]
  kept := by
    intro key p hp hkept
    by_cases hkey : key = d.key
    · subst hkey
      rcases hkept with hreadonly | hplain
      · rwa [Object.define_of_readonly hp hreadonly]
      · rcases hd with ⟨name, rfl, -, hnone⟩ | ⟨name, code, f, rfl, -⟩
        · rw [hnone] at hp
          cases hp
        · exact absurd rfl (hplain name code (List.mem_singleton.mpr rfl))
    · rw [Object.define_of_ne hkey, hp]
  undefined := by
    rintro key hnone ⟨d', hd', rfl⟩ hplain
    obtain rfl := List.mem_singleton.mp hd'
    rcases hd with ⟨name, rfl, rfl, -⟩ | ⟨name, code, f, rfl, -⟩
    · obtain ⟨p, hp, -, -, hnew⟩ := Object.define_self (fun p hp => by rw [hnone] at hp; cases hp) .undefined
      rw [hp, hnew hnone]
    · exact absurd rfl (hplain name code (List.mem_singleton.mpr rfl))
  writable := by
    intro key hwritable p hp
    by_cases hkey : key = d.key
    · subst hkey
      obtain ⟨q, hq, -, hwritable, -⟩ := Object.define_self hwritable v
      rw [hq] at hp
      cases hp
      exact hwritable
    · rw [Object.define_of_ne hkey] at hp
      exact hwritable p hp
  function := by
    intro name code before after hsplit _ hwritable
    obtain rfl : d = .function name code := by
      cases before with
      | nil => exact (List.cons.inj hsplit).1
      | cons d' before => cases before <;> cases hsplit
    rcases hd with ⟨name', heq, -⟩ | ⟨name', code', f, heq, rfl, hfresh, hcallable⟩
    · cases heq
    · cases heq
      have hf : f ≠ scope := by
        rintro rfl
        rw [ho] at hfresh
        cases hfresh
      obtain ⟨p, hp, hv, -, -⟩ := Object.define_self hwritable (.object f)
      exact ⟨f, p, hfresh, by rw [Heap.object?_change, if_neg hf]; exact hcallable, hp, hv⟩

/-- One declaration is bound. -/
theorem one (ho : s.object? scope = some o) {outer : Option ObjectId} (hkind : o.kind = .scope outer)
    (d : Declaration) : ∃ o', Binds scope [d] s (Store.bindDeclaration scope d s).2 o o' := by
  rcases d with name | ⟨name, code⟩
  · have hown : s.hasOwn scope name = o.properties.contains (.ofText name) := by
      unfold Heap.hasOwn
      rw [ho]
      rfl
    rw [Store.bindDeclaration_variable, hown]
    cases hthere : o.properties.contains (.ofText name) with
    | true => exact ⟨o, .of_there ho hthere⟩
    | false =>
        have hnone : o.properties.get? (.ofText name) = none :=
          Option.not_isSome_iff_eq_none.mp (by rw [← Properties.contains, hthere]; exact Bool.false_ne_true)
        exact ⟨_, .of_define ho hkind (fun _ _ hx => hx) (.inl ⟨name, rfl, rfl, hnone⟩)⟩
  · obtain ⟨f, s₁, hmade, hfresh, hcallable, hkept⟩ :=
      Store.allocFunction_fresh (.script code scope) code.params.length s
    have hbound : Store.bindDeclaration scope (.function name code) s =
        Store.declare scope name (.object f) s₁ := bind_of_ok hmade
    rw [hbound]
    exact ⟨_, .of_define ho hkind hkept (.inr ⟨name, code, f, rfl, rfl, hfresh, hcallable⟩)⟩

/-- **All declarations are bound**, one after the other. -/
theorem all (ho : s.object? scope = some o) {outer : Option ObjectId} (hkind : o.kind = .scope outer)
    (ds : List Declaration) : ∃ o', Binds scope ds s (Store.bindAll scope ds s).2 o o' := by
  induction ds generalizing s o with
  | nil => exact ⟨o, .nil ho⟩
  | cons d rest ih =>
      obtain ⟨o₁, hone⟩ := one ho hkind d
      obtain ⟨o', hrest⟩ := ih hone.after (hone.kind.trans hkind)
      rw [Store.bindAll_cons]
      exact ⟨o', hone.cons hrest⟩

section

variable {body : List Node} {key : Key} {name : String}

theorem contains_body (h : Binds scope (declarationsOf body) s s' o o') (key : Key) :
    o'.properties.contains key = true ↔ o.properties.contains key = true ∨
      ∃ name, (DeclaresVariable body name ∨ DeclaresFunction body name) ∧ key = .ofText name := by
  rw [h.contains, declares_iff]

/-- What is not a function of the body stays. -/
theorem kept_body (h : Binds scope (declarationsOf body) s s' o o') {p : Property}
    (hp : o.properties.get? key = some p)
    (hkept : p.readonly = true ∨ ∀ name, DeclaresFunction body name → key ≠ .ofText name) :
    o'.properties.get? key = some p := by
  refine h.kept key p hp (hkept.imp_right fun hkey name code hmem heq => ?_)
  exact hkey name (.of_mem hmem) heq.symm

/-- A new variable of the body is undefined. -/
theorem undefined_body (h : Binds scope (declarationsOf body) s s' o o')
    (hnone : o.properties.get? (.ofText name) = none) (hvariable : DeclaresVariable body name)
    (hname : ¬DeclaresFunction body name) :
    o'.properties.get? (.ofText name) = some (.plain .undefined) := by
  refine h.undefined _ hnone ⟨_, mem_declarationsOf_variable.mpr hvariable, rfl⟩ ?_
  intro name' code hmem heq
  exact hname (Key.ofText_injective heq ▸ DeclaresFunction.of_mem hmem)

/-- The last function of a name in the body is bound to it. -/
theorem function_body (h : Binds scope (declarationsOf body) s s' o o')
    (hname : DeclaresFunction body name)
    (hwritable : ∀ p, o.properties.get? (.ofText name) = some p → p.readonly = false) :
    ∃ last f p, DeclaresLast body name last ∧ s.object? f = none ∧
      (s'.object? f).bind Object.callable? = some (.script last scope) ∧
      o'.properties.get? (.ofText name) = some p ∧ p.value = .object f := by
  obtain ⟨last, before, after, hsplit, hafter, hlast⟩ := hname.exists_last
  obtain ⟨f, p, hfresh, hcallable, hp, hv⟩ := h.function name last before after hsplit hafter hwritable
  exact ⟨last, f, p, hlast, hfresh, hcallable, hp, hv⟩

end

end Binds

namespace Store

/-- **Hoisting binds what a body declares, and nothing else.**

It is done when the loop over the pending statements is, and it never fails.  The scope gets the
names of the declarators and the functions that stand in the body, outside its functions.  The
last function of a name is bound to it, made anew with the scope around it, unless the name was
read-only; a name that was there keeps its property otherwise, and a new one is undefined. -/
theorem hoist_binds_declared {s : Heap} {scope : ObjectId} {o : Object} {outer : Option ObjectId}
    (ho : s.object? scope = some o) (hkind : o.kind = .scope outer) (body : List Node) :
    ∃ s' o', hoist body scope s = (.ok (), s') ∧ Loop.Ends (hoistTurn scope) (body, s) s' ∧
      s'.object? scope = some o' ∧ o'.kind = o.kind ∧ o'.parent = o.parent ∧
      (∀ id x, id ≠ scope → s.object? id = some x → s'.object? id = some x) ∧
      (∀ key, o'.properties.contains key = true ↔ o.properties.contains key = true ∨
        ∃ name, (DeclaresVariable body name ∨ DeclaresFunction body name) ∧ key = .ofText name) ∧
      (∀ name, DeclaresFunction body name →
        (∀ p, o.properties.get? (.ofText name) = some p → p.readonly = false) →
        ∃ code f p, DeclaresLast body name code ∧ s.object? f = none ∧
          (s'.object? f).bind Object.callable? = some (.script code scope) ∧
          o'.properties.get? (.ofText name) = some p ∧ p.value = .object f) ∧
      (∀ key p, o.properties.get? key = some p →
        p.readonly = true ∨ (∀ name, DeclaresFunction body name → key ≠ .ofText name) →
        o'.properties.get? key = some p) ∧
      (∀ name, o.properties.get? (.ofText name) = none → DeclaresVariable body name →
        ¬DeclaresFunction body name → o'.properties.get? (.ofText name) = some (.plain .undefined)) := by
  obtain ⟨o', hbinds⟩ := Binds.all ho hkind (declarationsOf body)
  exact ⟨_, o', bindAll_eq _ s, hoistTurn_ends body s, hbinds.after, hbinds.kind, hbinds.parent,
    hbinds.others, hbinds.contains_body, fun _ hname hwritable => hbinds.function_body hname hwritable,
    fun _ _ hp hkept => hbinds.kept_body hp hkept,
    fun _ hnone hvariable hname => hbinds.undefined_body hnone hvariable hname⟩

/-- A function in a block is bound in the scope around the block. -/
theorem hoist_binds_declared_block :
    let o : Object := .new none (.scope none)
    let s : Heap := (holding #[o]).toHeap
    let body : List Node := [.empty, .block [.functionDeclaration ⟨some "f", [], .block []⟩]]
    s.object? ⟨0⟩ = some o ∧ o.kind = .scope none ∧
      ∃ code f p, DeclaresLast body "f" code ∧ s.object? f = none ∧
        ((hoist body ⟨0⟩ s).2.object? f).bind Object.callable? = some (.script code ⟨0⟩) ∧
        (hoist body ⟨0⟩ s).2.own? ⟨0⟩ (.ofText "f") = some p ∧ p.value = .object f := by
  intro o s body
  have hname : DeclaresFunction body "f" := ⟨[1, 0], _, rfl, rfl⟩
  have hnew : ∀ p, o.properties.get? (.ofText "f") = some p → p.readonly = false := by
    intro p hp
    rw [show o.properties.get? (.ofText "f") = none from Properties.get?_empty _] at hp
    cases hp
  refine ⟨rfl, rfl, ?_⟩
  obtain ⟨s', o', hhoist, -, ho', -, -, -, -, hfunctions, -⟩ :=
    hoist_binds_declared (show s.object? ⟨0⟩ = some o from rfl) rfl body
  obtain ⟨code, f, p, hlast, hfresh, hcallable, hp, hv⟩ := hfunctions "f" hname hnew
  rw [hhoist]
  exact ⟨code, f, p, hlast, hfresh, hcallable, by rw [Heap.own?, ho']; exact hp, hv⟩

end Store

end Stepwise
