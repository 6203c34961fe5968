import Lasso.Lang.Parser
/-!
# The grammar of conditions and actions

The rules of expressions, types, statements and declarations. A rule asks for its parts by `Goal`s;
`parse` ties the rules together. A rule reads its parts one level deeper, and no text is nested deeper
than it has tokens, so the levels that `depth` allows are enough for every text.

Main definitions: `expression?` reads an expression up to the end of the tokens; `statements?` reads
the statements up to the closing bracket of a function's body, which declarations may follow.

A bracket that opens a block and one that opens a composite literal look alike. In the header of
`if`, `for` and `switch` a bare name before it does not start a literal (`lit` is false there);
inside brackets it does again.
-/

namespace Lasso.Lang

open Lasso.Lang.Parser

/-! ## 1. Goals -/

/-- What a rule may ask for. -/
inductive Goal where
  /-- An expression whose binary operators bind at least as tightly as `strength`. -/
  | expr (lit : Bool) (strength : Nat)
  /-- An operand with the operators before it. -/
  | unary (lit : Bool)
  /-- A type, if one starts here. -/
  | type
  /-- The elements of a composite literal, in their brackets. -/
  | elements
  | stmt
  | ifStmt

/-- What a goal yields. -/
@[reducible] def Goal.Result : Goal → Type
  | .expr _ _ | .unary _ => Expr
  | .type => Option Expr
  | .elements => Unit
  | .stmt => Stmt
  | .ifStmt => Unit

/-- A reader of the grammar, which asks for parts by their goals. -/
abbrev Rule := Parser Goal.Result

/-- Reads a part of the given kind. -/
def ask (g : Goal) : Rule g.Result := part g

/-- An expression inside brackets or in a statement's body. -/
def anyExpr : Rule Expr := ask (.expr true 1)

/-- A type, which must come here. -/
def someType : Rule Expr := do
  match ← ask .type with
  | some t => return t
  | none => refuse

/-! ## 2. Types -/

/-- An indexed expression or an instance of a type, by the number of its arguments. -/
def indexForm (args : Nat) : Expr := .other (if args = 1 then .index else .indexList)

/-- A name, or a name selected from a package. -/
def typeName (first : String) : Rule Expr := do
  if ← acceptOp .period then
    let _ ← name
    return .other .selector
  else return .name first

/-- The arguments of a type, in their brackets. -/
def typeArgs : Rule Expr := do
  expectOp .lbrack
  let args ← listUntil .rbrack (someType)
  expectOp .rbrack
  if args.isEmpty then refuse
  return indexForm args.length

/-- The arguments of a type, if there are any. -/
def maybeTypeArgs (t : Expr) : Rule Expr := do
  if ← atOp .lbrack then typeArgs else return t

/-- A named type, from its first name on. -/
def namedType (first : String) : Rule Expr := do
  maybeTypeArgs (← typeName first)

/-- The closing bracket and the element of an array type. -/
def arrayElement : Rule Expr := do
  expectOp .rbrack
  let _ ← someType
  return .other .arrayType

/-- An array or slice type behind its opening bracket. -/
def arrayType : Rule Expr := do
  unless ← acceptOp .ellipsis do
    unless ← atOp .rbrack do
      let _ ← anyExpr
  arrayElement

/-- Behind a name: an array type, and then the name is that of a field, or arguments that make the
name a type. Says whether the name is that of a field. -/
def arrayOrInstance : Rule (Bool × Expr) := do
  expectOp .lbrack
  let (args, trailing) ← repeatStep (fun (args, trailing) => do
    if trailing then return none
    else if args = 0 then
      if ← atOp .rbrack then return none
      let _ ← anyExpr
      return some (1, false)
    else if ← acceptOp .comma then
      if ← atOp .rbrack then return some (args, true)
      let _ ← anyExpr
      return some (args + 1, false)
    else return none) (0, false)
  expectOp .rbrack
  if args = 0 then
    let _ ← someType
    return (true, .other .arrayType)
  else if args = 1 then
    match ← ask .type with
    | some _ => if trailing then refuse else return (true, .other .arrayType)
    | none => return (false, indexForm 1)
  else return (false, indexForm args)

/-- A field of a structure. -/
def fieldDecl : Rule Unit := do
  match ← peek with
  | some (.name first) =>
    skip
    match ← peek with
    | some (.op .period) =>
      let _ ← namedType first
    | some (.str _) | some (.semi _) | some (.op .rbrace) => pure ()
    | some (.op .comma) =>
      let _ ← repeatStep (fun (_ : Unit) => do
        if ← acceptOp .comma then
          let _ ← name
          return some ()
        else return none) ()
      let _ ← someType
    | some (.op .lbrack) =>
      let _ ← arrayOrInstance
    | _ =>
      let _ ← someType
  | some (.op .mul) =>
    skip
    let _ ← namedType (← name)
  | _ => refuse
  match ← peek with
  | some (.str _) => skip
  | _ => pure ()
  endStatement

/-- A structure type. -/
def structType : Rule Expr := do
  expectWord .struct
  expectOp .lbrace
  let _ ← repeatStep (fun (_ : Unit) => do
    match ← peek with
    | some (.name _) | some (.op .mul) | some (.op .lparen) =>
      fieldDecl
      return some ()
    | _ => return none) ()
  expectOp .rbrace
  return .other .structType

/-- One term of a type set. -/
def typeTerm : Rule Expr := do
  if ← acceptOp .tilde then
    return .unary .tilde (← someType)
  else someType

/-- The further terms of a type set. -/
def typeSetTail (first : Expr) : Rule Expr :=
  repeatStep (fun t => do
    if ← acceptOp .or then return some (.binary .or t (← typeTerm)) else return none) first

/-- A type set. -/
def typeSet : Rule Expr := do typeSetTail (← typeTerm)

/-- Whether a type without a name can start here. -/
def startsType : Option Token → Bool
  | some (.op .mul) | some (.op .arrow) | some (.op .lparen) | some (.op .lbrack)
  | some (.word .func) | some (.word .chan) | some (.word .map) | some (.word .struct)
  | some (.word .interface) => true
  | _ => false

/-- A type behind an ellipsis. -/
def spreadType : Rule Expr := do
  expectOp .ellipsis
  let _ ← someType
  return .other .ellipsis

/-- A parameter: whether it has a name, and its type. A lone name may turn out to be a type. -/
structure Param where
  named : Bool
  type : Option Expr

/-- A parameter behind its first name. -/
def namedParam (first : String) (sets : Bool) : Rule (Param × Bool) := do
  match ← peek with
  | some (.op .lbrack) =>
    let (named, t) ← arrayOrInstance
    return (⟨named, t⟩, true)
  | some (.op .ellipsis) => return (⟨true, ← spreadType⟩, false)
  | some (.op .period) => return (⟨false, ← namedType first⟩, true)
  | some (.op .tilde) =>
    if sets then return (⟨true, ← typeSet⟩, false) else return (⟨true, none⟩, true)
  | some (.op .or) =>
    if sets then return (⟨false, ← typeSetTail (.name first)⟩, false)
    else return (⟨true, none⟩, true)
  | some (.name _) => return (⟨true, ← someType⟩, true)
  | t => if startsType t then return (⟨true, ← someType⟩, true) else return (⟨true, none⟩, true)

/-- A parameter. Its type may be a type set when `sets` holds. -/
def param (first : Option String) (sets : Bool) : Rule Param := do
  let (q, more) ← match first with
    | some n => namedParam n sets
    | none => do
      match ← peek with
      | some (.name n) =>
        skip
        namedParam n sets
      | some (.op .ellipsis) => pure (⟨false, ← spreadType⟩, false)
      | some (.op .tilde) =>
        if sets then pure (⟨false, ← typeSet⟩, false) else refuse
      | t => if startsType t then pure (⟨false, ← someType⟩, true) else refuse
  match q.type with
  | some t =>
    if more && sets && (← atOp .or) then return { q with type := ← typeSetTail t } else return q
  | none => return q

/-- Gives each parameter without a type that of its right neighbour; refuses a list in which names
and types are mixed up. -/
def distribute? : List Param → Option (List (Option Expr))
  | [] => some []
  | q :: rest => do
    let ts ← distribute? rest
    match q.type, ts with
    | some t, _ => if q.named then some (some t :: ts) else none
    | none, some t :: _ => some (some t :: ts)
    | none, _ => none

/-- Whether a list of parameters is well formed. In a list of type parameters (`sets`) each needs
a name; an ellipsis may stand before the last parameter only, and only if `spread` allows it. -/
def paramsOk (sets spread : Bool) (ps : List Param) : Bool :=
  let types? :=
    if ps.all (fun q => !(q.named && q.type.isSome)) then
      if sets && !ps.isEmpty then none else some (ps.map (·.type))
    else distribute? ps
  match types? with
  | none => false
  | some ts =>
    let isSpread (t : Option Expr) : Bool := t = some (.other .ellipsis)
    (if spread then ts.dropLast else ts).all (!isSpread ·)

/-- A list of parameters up to its closing bracket. The first name, or the first parameter, may
have been read already. -/
def paramList (first : Option (String × Option Expr)) (closing : Op) (spread : Bool) :
    Rule (List Param) := do
  let sets := closing = .rbrack
  let (start, more) ← match first with
    | none => pure ([], true)
    | some (n, t?) => do
      let q ← match t? with
        | some t => pure ⟨true, ← typeSetTail t⟩
        | none => param (some n) sets
      pure ([q], ← comma closing)
  let rest ← if more then listUntil closing (param none sets) else pure []
  let ps := start ++ rest
  if paramsOk sets spread ps then return ps else refuse

/-- Parameters in their brackets. -/
def params (spread : Bool) : Rule Unit := do
  expectOp .lparen
  let _ ← paramList none .rparen spread
  expectOp .rparen

/-- Type parameters in their brackets. -/
def typeParams : Rule Unit := do
  expectOp .lbrack
  let ps ← paramList none .rbrack false
  expectOp .rbrack
  if ps.isEmpty then refuse

/-- The parameters and results of a function. -/
def signature : Rule Unit := do
  params true
  if ← atOp .lparen then params false
  else
    let _ ← ask .type

/-- A function type. -/
def funcType : Rule Expr := do
  expectWord .func
  signature
  return .other .funcType

/-- A method or an embedded type of an interface: the type, if one is embedded. -/
def methodSpec : Rule (Option Expr) := do
  let first ← name
  match ← typeName first with
  | .name _ =>
    if ← acceptOp .lbrack then
      let _ ← anyExpr
      let more ← comma .rbrack
      let args ← if more then listUntil .rbrack (someType) else pure []
      expectOp .rbrack
      return indexForm (args.length + 1)
    else if ← atOp .lparen then
      signature
      return none
    else return Expr.name first
  | t => return ← maybeTypeArgs t

/-- An interface type. -/
def interfaceType : Rule Expr := do
  expectWord .interface
  expectOp .lbrace
  let _ ← repeatStep (fun (_ : Unit) => do
    match ← peek with
    | some (.name _) =>
      match ← methodSpec with
      | some t =>
        let _ ← typeSetTail t
      | none => pure ()
      endStatement
      return some ()
    | some (.op .tilde) =>
      let _ ← typeSet
      endStatement
      return some ()
    | _ =>
      match ← ask .type with
      | some t =>
        let _ ← typeSetTail t
        endStatement
        return some ()
      | none => return none) ()
  expectOp .rbrace
  return .other .interfaceType

/-- A map type. -/
def mapType : Rule Expr := do
  expectWord .map
  expectOp .lbrack
  let _ ← someType
  expectOp .rbrack
  let _ ← someType
  return .other .mapType

/-- What a channel carries, behind the words that give its direction. -/
def chanElement (d : Direction) : Rule Expr := do
  match ← someType with
  | .other (.chanType e) => return .other (.chanType (.nested d e))
  | _ => return .other (.chanType (.plain d))

/-- A channel type. -/
def chanType : Rule Expr := do
  let d ←
    if ← acceptOp .arrow then
      expectWord .chan
      pure Direction.receive
    else do
      expectWord .chan
      if ← acceptOp .arrow then pure .send else pure .both
  chanElement d

/-- A type, if one starts here. -/
def typeRule : Rule (Option Expr) := do
  match ← peek with
  | some (.name first) =>
    skip
    return some (← namedType first)
  | some (.op .lbrack) =>
    skip
    return some (← arrayType)
  | some (.op .mul) =>
    skip
    let _ ← someType
    return some (.other .star)
  | some (.op .lparen) =>
    skip
    let t ← someType
    expectOp .rparen
    return some (.paren t)
  | some (.op .arrow) | some (.word .chan) => return some (← chanType)
  | some (.word .struct) => return some (← structType)
  | some (.word .func) => return some (← funcType)
  | some (.word .interface) => return some (← interfaceType)
  | some (.word .map) => return some (← mapType)
  | _ => return none

/-! ## 3. Expressions -/

/-- Statements up to a closing bracket or the next case. -/
def stmtList : Rule (List Stmt) :=
  List.reverse <$> repeatStep (fun acc => do
    match ← peek with
    | none | some (.word .case) | some (.word .default) | some (.op .rbrace) => return none
    | _ => return some ((← ask .stmt) :: acc)) []

/-- Statements in their brackets. -/
def block : Rule (List Stmt) := do
  expectOp .lbrace
  let ss ← stmtList
  expectOp .rbrace
  return ss

/-- A value in a composite literal. -/
def elementValue : Rule Unit := do
  if ← atOp .lbrace then ask .elements
  else
    let _ ← anyExpr

/-- The elements of a composite literal, in their brackets. -/
def elementsRule : Rule Unit := do
  expectOp .lbrace
  let _ ← listUntil .rbrace (do
    elementValue
    if ← acceptOp .colon then elementValue)
  expectOp .rbrace

/-- An operand without the operators around it. -/
def operand : Rule Expr := do
  match ← peek with
  | some (.name s) =>
    skip
    return .name s
  | some (.int ds) =>
    skip
    return .int ds
  | some (.str v) =>
    skip
    return .str v
  | some .literal =>
    skip
    return .other .literal
  | some (.op .lparen) =>
    skip
    let e ← anyExpr
    expectOp .rparen
    return .paren e
  | some (.word .func) =>
    let t ← funcType
    if ← atOp .lbrace then
      let _ ← block
      return .other .funcLit
    else return t
  | _ => someType

/-- A selection or a type assertion behind its point. -/
def selection : Rule Expr := do
  if ← acceptOp .lparen then
    let isOpen ← accept (.word .type)
    unless isOpen do
      let _ ← someType
    expectOp .rparen
    return .other (.typeAssert isOpen)
  else
    let _ ← name
    return .other .selector

/-- An index, a slice or type arguments behind the opening bracket. -/
def indexing : Rule Expr := do
  let bound : Rule Bool := do
    if (← atOp .colon) || (← atOp .rbrack) then return false
    let _ ← anyExpr
    return true
  let first ← bound
  if ← acceptOp .colon then
    let second ← bound
    if ← acceptOp .colon then
      let third ← bound
      unless second && third do refuse
    expectOp .rbrack
    return .other .slice
  unless first do refuse
  let args ← repeatStep (fun args => do
    if ← acceptOp .comma then
      if ← atOp .rbrack then return some args
      let _ ← someType
      return some (args + 1)
    else return none) 1
  expectOp .rbrack
  return indexForm args

/-- The arguments of a call behind the opening bracket. -/
def callArgs (f : Expr) : Rule Expr := do
  let (args, spread, _) ← repeatStep (fun (args, spread, more) => do
    if spread || !more || (← atOp .rparen) then return none
    let a ← anyExpr
    let spread ← acceptOp .ellipsis
    return some (a :: args, spread, ← comma .rparen)) (([] : List Expr), false, true)
  expectOp .rparen
  match args with
  | [a] => return .call f a spread
  | _ => return .callMany f

/-- Whether an opening bracket behind the expression starts a composite literal. -/
def opensLiteral (lit : Bool) : Expr → Bool
  | .name _ | .other .selector | .other .index | .other .indexList => lit
  | .other .arrayType | .other .structType | .other .mapType => true
  | _ => false

/-- What follows an operand. -/
def primaryTail (lit : Bool) (x : Expr) : Rule Expr :=
  repeatStep (fun x => do
    match ← peek with
    | some (.op .period) =>
      skip
      return some (← selection)
    | some (.op .lbrack) =>
      skip
      return some (← indexing)
    | some (.op .lparen) =>
      skip
      return some (← callArgs x)
    | some (.op .lbrace) =>
      if opensLiteral lit x.unparen then
        if x.unparen ≠ x then refuse
        ask .elements
        return some (.other .composite)
      else return none
    | _ => return none) x

/-- An operand with the operators before it. -/
def unaryRule (lit : Bool) : Rule Expr := do
  match ← peek with
  | some (.op .arrow) =>
    skip
    match ← ask (.unary lit) with
    | .other (.chanType t) =>
      match t.receive? with
      | some t => return .other (.chanType t)
      | none => refuse
    | x => return .unary .arrow x
  | some (.op .mul) =>
    skip
    let _ ← ask (.unary lit)
    return .other .star
  | some (.op o) =>
    if o = .add ∨ o = .sub ∨ o = .not ∨ o = .xor ∨ o = .and ∨ o = .tilde then
      skip
      return .unary o (← ask (.unary lit))
    else primaryTail lit (← operand)
  | _ => primaryTail lit (← operand)

/-- The binary operators behind an operand, as long as they bind at least as tightly as
`strength`. -/
def binaryTail (lit : Bool) (strength : Nat) (x : Expr) : Rule Expr :=
  repeatStep (fun x => do
    match ← peek with
    | some (.op o) =>
      match o.strength? with
      | some k =>
        if k < strength then return none
        skip
        return some (.binary o x (← ask (.expr lit (k + 1))))
      | none => return none
    | _ => return none) x

/-- An expression. -/
def exprRule (lit : Bool) (strength : Nat) : Rule Expr := do
  binaryTail lit strength (← ask (.unary lit))

/-! ## 4. Declarations -/

/-- Splits an expression into the name of a type parameter and its constraint. A form that could
be a length too is split only when `force` holds or the constraint is clearly a type. -/
def splitParam? (force : Bool) : Expr → Option (String × Option Expr)
  | .name n => some (n, none)
  | .binary .mul (.name n) y =>
    if force || y.isTypeElement then some (n, some (.other .star)) else none
  | .binary .or l r =>
    match splitParam? (force || r.isTypeElement) l with
    | some (n, some t) => some (n, some (.binary .or t r))
    | _ => none
  | .call (.name n) a false =>
    if force || a.isTypeElement then some (n, some (.paren a)) else none
  | _ => none

/-- A type declaration behind its key word. -/
def typeSpec : Rule Unit := do
  let _ ← name
  if ← acceptOp .lbrack then
    match ← peek with
    | some (.name n) =>
      skip
      let x ←
        if ← atOp .lbrack then pure (Expr.name n)
        else binaryTail true 1 (← primaryTail true (.name n))
      match splitParam? (← atOp .comma) x with
      | some (n, t?) =>
        if t?.isSome || !(← atOp .rbrack) then
          let _ ← paramList (some (n, t?)) .rbrack false
          expectOp .rbrack
          let _ ← acceptOp .assign
          let _ ← someType
        else
          let _ ← arrayElement
      | none =>
        let _ ← arrayElement
    | _ =>
      let _ ← arrayType
  else
    let _ ← acceptOp .assign
    let _ ← someType
  endStatement

/-- A constant or variable declaration behind its key word. -/
def valueSpec (constant : Bool) : Rule Unit := do
  let _ ← separated name
  if constant then
    unless (← atSemi) || (← atOp .rparen) do
      let _ ← ask .type
      if ← acceptOp .assign then
        let _ ← separated (anyExpr)
  else
    unless ← atOp .assign do
      let _ ← someType
    if ← acceptOp .assign then
      let _ ← separated (anyExpr)
  endStatement

/-- One declaration, or several in brackets. -/
def declGroup (spec : Rule Unit) : Rule Unit := do
  if ← acceptOp .lparen then
    let _ ← repeatStep (fun (_ : Unit) => do
      if ← atOp .rparen then return none
      spec
      return some ()) ()
    expectOp .rparen
    endStatement
  else spec

/-- A declaration of constants, types or variables. -/
def genDecl : Rule Unit := do
  match ← peek with
  | some (.word .const) =>
    skip
    declGroup (valueSpec true)
  | some (.word .var) =>
    skip
    declGroup (valueSpec false)
  | some (.word .type) =>
    skip
    declGroup (typeSpec)
  | _ => refuse

/-- A function declaration. -/
def funcDecl : Rule Unit := do
  expectWord .func
  let method ← atOp .lparen
  if method then params true
  let _ ← name
  if ← atOp .lbrack then
    typeParams
    if method then refuse
  signature
  match ← peek with
  | some (.op .lbrace) =>
    let _ ← block
    endStatement
  | some (.semi _) =>
    skip
    if ← atOp .lbrace then refuse
  | _ => endStatement

/-- Declarations up to the end of the text. -/
def declarations : Rule Unit :=
  repeatStep (fun (_ : Unit) => do
    match ← peek with
    | none => return none
    | some (.word .func) =>
      funcDecl
      return some ()
    | _ =>
      genDecl
      return some ()) ()

/-! ## 5. Statements -/

/-- What a simple statement may be at its place. -/
inductive Simple where
  | basic
  /-- A label may stand here. -/
  | labelOk
  /-- A range clause may stand here. -/
  | rangeOk
  deriving DecidableEq

/-- A simple statement, and whether it is a range clause. -/
def simpleStmt (lit : Bool) (mode : Simple) : Rule (Stmt × Bool) := do
  let xs ← separated (ask (.expr lit 1))
  match ← peek, xs with
  | some (.op o), x :: others =>
    if o.assigns then
      skip
      if mode = .rangeOk && (o = .define || o = .assign) then
        if ← accept (.word .range) then
          return (.assign xs o [← ask (.expr lit 1)], true)
      return (.assign xs o (← separated (ask (.expr lit 1))), false)
    unless others.isEmpty do refuse
    match o, x with
    | .colon, .name _ =>
      if mode = .labelOk then
        skip
        let _ ← ask .stmt
        return (.labeled, false)
      else refuse
    | .colon, _ => refuse
    | .arrow, _ =>
      skip
      let _ ← ask (.expr lit 1)
      return (.other, false)
    | .inc, _ =>
      skip
      return (.increment x, false)
    | .dec, _ =>
      skip
      return (.decrement x, false)
    | _, _ => return (.expr x, false)
  | _, [x] => return (.expr x, false)
  | _, _ => refuse

/-- A call that starts elsewhere or runs at the end. -/
def callStmt : Rule Unit := do
  let x ← anyExpr
  unless x.isCall do refuse
  endStatement

/-- The condition in a header: an expression, which may be missing only if `optional` holds. -/
def conditionOk (optional : Bool) : Option Stmt → Bool
  | some (.expr _) => true
  | some _ => false
  | none => optional

/-- The header of a conditional statement. -/
def ifHeader : Rule Unit := do
  let cond ← do
    if ← atOp .lbrace then refuse
    let init ←
      if ← atSemi then pure none
      else some <$> Prod.fst <$> simpleStmt false .basic
    if ← atOp .lbrace then pure init
    else if ← atSemi then
      skip
      if ← atOp .lbrace then refuse
      some <$> Prod.fst <$> simpleStmt false .basic
    else refuse
  unless conditionOk false cond do refuse

/-- A conditional statement. -/
def ifRule : Rule Unit := do
  expectWord .if
  ifHeader
  let _ ← block
  if ← accept (.word .else) then
    if ← at? (.word .if) then ask .ifStmt
    else
      let _ ← block
      endStatement
  else endStatement

/-- Clauses that start with `case` or `default`, in their brackets. -/
def clauses (head : Rule Unit) : Rule Unit := do
  expectOp .lbrace
  let _ ← repeatStep (fun (_ : Unit) => do
    match ← peek with
    | some (.word .case) =>
      skip
      head
      expectOp .colon
      let _ ← stmtList
      return some ()
    | some (.word .default) =>
      skip
      expectOp .colon
      let _ ← stmtList
      return some ()
    | _ => return none) ()
  expectOp .rbrace
  endStatement

/-- Whether a statement can be what a switch decides on. -/
def switchTagOk : Option Stmt → Bool
  | none | some (.expr _) => true
  | some (.assign [_] .define [.other (.typeAssert true)]) => true
  | _ => false

/-- A switch behind its key word. -/
def switchStmt : Rule Unit := do
  let tag ← do
    if ← atOp .lbrace then pure none
    else
      let first ←
        if ← atSemi then pure none
        else some <$> Prod.fst <$> simpleStmt false .basic
      if ← atSemi then
        skip
        if ← atOp .lbrace then pure none
        else some <$> Prod.fst <$> simpleStmt false .basic
      else pure first
  unless switchTagOk tag do refuse
  clauses do
    let _ ← separated (anyExpr)

/-- What a case of a selection waits for. -/
def commHead : Rule Unit := do
  let xs ← separated (anyExpr)
  if ← acceptOp .arrow then
    if xs.length ≠ 1 then refuse
    let _ ← anyExpr
  else if (← atOp .assign) || (← atOp .define) then
    skip
    if 2 < xs.length then refuse
    let _ ← anyExpr
  else if xs.length ≠ 1 then refuse

/-- A loop behind its key word. -/
def forStmt : Rule Unit := do
  let ok ← do
    if ← atOp .lbrace then pure true
    else if ← accept (.word .range) then
      let _ ← ask (.expr false 1)
      pure true
    else
      let (first, isRange) ←
        if ← atSemi then pure ((none : Option Stmt), false)
        else Prod.map some id <$> simpleStmt false .rangeOk
      if isRange then
        match first with
        | some (.assign lhs _ _) => pure (decide (lhs.length ≤ 2))
        | _ => pure true
      else if ← atSemi then
        skip
        let cond ←
          if ← atSemi then pure none
          else some <$> Prod.fst <$> simpleStmt false .basic
        unless ← atSemi do refuse
        skip
        unless ← atOp .lbrace do
          let _ ← simpleStmt false .basic
        pure (conditionOk true cond)
      else pure (conditionOk true first)
  let _ ← block
  endStatement
  unless ok do refuse

/-- Whether a simple statement can start with the token. -/
def startsSimple : Token → Bool
  | .name _ | .int _ | .str _ | .literal => true
  | .word .func | .word .struct | .word .map | .word .chan | .word .interface => true
  | .op .lparen | .op .lbrack => true
  | .op .add | .op .sub | .op .mul | .op .and | .op .xor | .op .arrow | .op .not => true
  | _ => false

/-- A statement. -/
def stmtRule : Rule Stmt := do
  match ← peek with
  | none => refuse
  | some (.semi _) =>
    skip
    return .empty
  | some (.op .rbrace) => return .empty
  | some (.op .lbrace) =>
    let _ ← block
    endStatement
    return .other
  | some (.word w) =>
    match w with
    | .const | .type | .var =>
      genDecl
      return .other
    | .go | .defer =>
      skip
      callStmt
      return .other
    | .return =>
      skip
      unless (← atSemi) || (← atOp .rbrace) do
        let _ ← separated (anyExpr)
      endStatement
      return .other
    | .goto =>
      skip
      let _ ← name
      endStatement
      return .other
    | .break | .continue =>
      skip
      match ← peek with
      | some (.name _) => skip
      | _ => pure ()
      endStatement
      return .other
    | .fallthrough =>
      skip
      endStatement
      return .other
    | .if =>
      ask .ifStmt
      return .other
    | .switch =>
      skip
      switchStmt
      return .other
    | .select =>
      skip
      clauses (commHead)
      return .other
    | .for =>
      skip
      forStmt
      return .other
    | _ => simple (.word w)
  | some t => simple t
where
  simple (t : Token) : Rule Stmt := do
    unless startsSimple t do refuse
    let (s, _) ← simpleStmt true .labelOk
    unless s = .labeled do endStatement
    return s

/-- The rule of a goal. -/
def rule : (g : Goal) → Rule g.Result
  | .expr lit strength => exprRule lit strength
  | .unary lit => unaryRule lit
  | .type => typeRule
  | .elements => elementsRule
  | .stmt => stmtRule
  | .ifStmt => ifRule

/-! ## 6. Texts -/

/-- Reads a goal, with rules nested up to the given depth. -/
def parse : Nat → (g : Goal) → Reading g.Result
  | 0 => fun _ _ => none
  | n + 1 => fun g => (rule g).run (parse n)

/-- A depth that no text with these tokens exceeds. -/
def depth (ts : List Token) : Nat := 8 * (ts.length + 4)

/-- The expression that the tokens spell. -/
def expression? (ts : List Token) : Option Expr := do
  let (e, rest) ← anyExpr.run (parse (depth ts)) ts
  match rest with
  | [] | [.semi true] => some e
  | _ => none

/-- The statements of a function's body, up to its closing bracket, and then declarations up to the end
of the text. -/
def bodyRule : Rule (List Stmt) := do
  let ss ← stmtList
  expectOp .rbrace
  endStatement
  declarations
  return ss

/-- The statements of a function's body, given the tokens behind its opening bracket. The tokens go
on to the end of the text, with the closing bracket and maybe further declarations. -/
def statements? (ts : List Token) : Option (List Stmt) :=
  (bodyRule.run (parse (depth ts)) ts).map (·.1)

end Lasso.Lang
