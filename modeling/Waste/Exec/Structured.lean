import Waste.Exec.Body
import Waste.Exec.Compare
import Waste.Lib.Simulation

/-!
# Structured execution

Two machines for the body of one function.  `flatMachine` is the instruction loop of
`exec_invoke_frame` on the array of `parse_body`, with its control stack and its jump
targets; `exec_continues` says that its steps are the rounds of the machine.
`structuredMachine` is the reference: blocks, loops and ifs are nested terms,
a branch leaves the scopes up to its label and carries exactly the values of the label,
and a branch to the outermost label returns.

Calls are a parameter of both machines, because they only concern the operands of the
innermost scope.
-/

namespace Waste.Exec

open Waste.Types Simulation

/-- An activation of a function: what its body can refer to, the number of its results,
and how a call of another function ends. -/
structure Activation (α β σ ε : Type) where
  handlers : Handlers α β σ ε
  prog : Nat → Module α β
  engine : Nat
  results : Nat
  callee : Nat → Nat → List Value → σ → Completion ε × σ

variable {α β σ ε : Type}

def Activation.types (a : Activation α β σ ε) : TypeSection := (a.prog a.engine).types

/-! ## The instruction array -/

/-- The end of `exec_invoke_frame` and the next round of its loop. -/
def settle (results : Nat) : Move σ ε → Progress Frame σ (Completion ε)
  | .next fr s => .next fr s
  | .return_ fr s =>
    match collectResults results fr with
    | .error fault => .done (.fault fault) s
    | .ok values => .done (.values values) s
  | .fault x s => .done (.fault x) s
  | .throw x s => .done (.throw x) s

/-- What the loop of `exec_invoke_frame` does after a handler. -/
def act (a : Activation α β σ ε) (s : σ) : Action σ ε → Progress Frame σ (Completion ε)
  | .move move => settle a.results move
  | .call engine func args fr =>
    let reply := a.callee engine func args s
    match handleCallResult a.handlers a.engine fr reply.2 reply.1 with
    | .inl move => settle a.results move
    | .inr answer => .done answer reply.2
  | .tail engine func args fr =>
    let reply := a.callee engine func args s
    if engine = a.engine then .done reply.1 reply.2
    else
      match reply.1 with
      | .values _ => .next fr.advance reply.2
      | answer => .done answer reply.2

/-- One round of the loop. -/
def flatStep (a : Activation α β σ ε) (code : List (ExecInstr α β)) (fr : Frame) (s : σ) :
    Progress Frame σ (Completion ε) :=
  match code[fr.pc]? with
  | none => settle a.results (.return_ fr s : Move σ ε)
  | some instr => act a s (dispatch a.handlers a.prog a.engine a.results instr fr s)

/-- The instruction that runs next, when it is no bracket, and the operands. -/
def flatObserve (code : List (ExecInstr α β)) (fr : Frame) : Option (Basic α β × List Value) :=
  match code[fr.pc]? with
  | some { op := .basic instr, .. } => some (instr, fr.operands)
  | _ => none

def flatMachine (a : Activation α β σ ε) (code : List (ExecInstr α β)) :
    Machine Frame σ (Completion ε) (Basic α β × List Value) where
  step := flatStep a code
  observe := flatObserve code

/-! ### The loop of the machine -/

section

variable {H : Handlers α β σ ε} {prog : Nat → Module α β} {engine depth func : Nat} {st : State σ}
  (rec : Job → State σ → Completion ε × State σ) (k : Frame → State σ → Completion ε × State σ)

/-- A run goes on with `k`, or it has ended. -/
def Continues (run : Completion ε × State σ) : Progress Frame σ (Completion ε) → Prop
  | .next fr s => ∃ st : State σ, st.shared = s ∧ run = k fr st
  | .done answer s => run.1 = answer ∧ run.2.shared = s

/-- `callee` answers as the job that the action starts, which does not yield. -/
def Action.Served (engine depth : Nat) (st : State σ)
    (callee : Nat → Nat → List Value → σ → Completion ε × σ) (action : Action σ ε) : Prop :=
  let serves (job : Job) (reply : Completion ε × σ) :=
    ∃ answer u, rec job st = (answer, u) ∧ answer ≠ .yield ∧ reply = (answer, u.shared)
  match action with
  | .move _ => True
  | .call e f args _ => serves (.invoke e f args) (callee e f args st.shared)
  | .tail e f args _ =>
    serves (if e = engine then .enter engine depth f args else .invoke e f args)
      (callee e f args st.shared)

theorem proceed_continues (move : Move σ ε) :
    Continues k (proceed (prog engine) func k st move)
      (settle ((prog engine).resultCount func) move) := by
  cases move with
  | next fr s => exact ⟨_, rfl, rfl⟩
  | return_ fr s =>
    simp only [proceed, finish, settle]
    cases collectResults ((prog engine).resultCount func) fr <;> exact ⟨rfl, rfl⟩
  | fault | throw => exact ⟨rfl, rfl⟩

/-- A round of the machine's loop is a step of the instruction array. -/
theorem exec_continues {host : Nat → Nat → List Value → σ → HostReply σ ε} {n : Nat}
    {body : Func α β} {fr : Frame} {instr : ExecInstr α β}
    {callee : Nat → Nat → List Value → σ → Completion ε × σ}
    (hbody : (prog engine).defined? func = some body) (hinstr : body.code[fr.pc]? = some instr)
    (hgo : st.decision = false)
    (hserved : (dispatch H prog engine ((prog engine).resultCount func) instr fr st.shared).Served
      (exec H prog host n) engine depth (st.decided.emit (.instr engine func fr)) callee) :
    Continues (fun fr => exec H prog host n (.loop engine depth func fr))
      (exec H prog host (n + 1) (.loop engine depth func fr) st)
      (flatStep ⟨H, prog, engine, (prog engine).resultCount func, callee⟩ body.code fr
        st.shared) := by
  rw [exec_loop]
  simp only [round, hbody, hinstr, hgo, Bool.false_eq_true, if_false, perform, flatStep]
  change Continues _ (match dispatch H prog engine _ instr fr st.shared with
    | .move move => _ | .call e f args fr' => _ | .tail e f args fr' => _) _
  generalize dispatch H prog engine ((prog engine).resultCount func) instr fr st.shared = action
    at hserved ⊢
  cases action with
  | move move => exact proceed_continues _ move
  | call e f args fr' =>
    obtain ⟨answer, u, hrun, hyield, hcallee⟩ := hserved
    simp only [act, hrun, show callee e f args st.shared = _ from hcallee, afterCall_of_ne hyield]
    cases handleCallResult H engine fr' u.shared answer with
    | inl move => exact proceed_continues _ move
    | inr answer => exact ⟨rfl, rfl⟩
  | tail e f args fr' =>
    obtain ⟨answer, u, hrun, hyield, hcallee⟩ := hserved
    simp only [act, show callee e f args st.shared = _ from hcallee]
    split_ifs at hrun ⊢ with hown <;> rw [hrun] <;> cases answer
    case neg.values => exact ⟨u, rfl, rfl⟩
    all_goals first | exact ⟨rfl, rfl⟩ | exact absurd rfl hyield

end

/-! ## Nested terms -/

/-- A block that is entered: the number of values a branch to it carries, its body, the
instructions behind it, and the operands below it. -/
structure Scope (α β : Type) where
  kind : BlockKind
  arity : Nat
  inner : Body α β
  rest : Body α β
  below : List Value

/-- The instructions to run, the scopes around them, and the operands of the innermost
scope. -/
structure Config (α β : Type) where
  body : Body α β
  scopes : List (Scope α β)
  operands : List Value
  locals : List Value

def belows (scopes : List (Scope α β)) : List Value := scopes.flatMap (·.below)

/-- The number of parameters and of results of a block. -/
def blockArity (types : TypeSection) (type : BlockType) : Nat × Nat :=
  ((type.signature types).map fun (params, results) => (params.length, results.length)).getD (0, 0)

namespace Config

variable (a : Activation α β σ ε)

def return_ (c : Config α β) (s : σ) : Progress (Config α β) σ (Completion ε) :=
  if a.results ≤ c.operands.length then
    .done (.values (c.operands.take a.results).reverse) s
  else .done (.fault .missingResult) s

/-- `br`: leave the scopes inside the label and carry exactly its values; a loop starts
again, the label outside all scopes returns. -/
def branch (depth : Nat) (c : Config α β) (s : σ) : Progress (Config α β) σ (Completion ε) :=
  if depth > c.scopes.length then .done (.fault .branchDepth) s
  else
    match c.scopes.drop depth with
    | [] => c.return_ a s
    | scope :: outer =>
      if scope.arity ≤ c.operands.length then
        let carried := c.operands.take scope.arity
        if scope.kind = .loop then
          .next { c with body := scope.inner, scopes := scope :: outer, operands := carried } s
        else
          .next { c with
            body := scope.rest, scopes := outer, operands := carried ++ scope.below } s
      else .done (.fault .branchValuesMissing) s

def findScope (x : ε) : List (Scope α β) → Option (Scope α β × Catch × List (Scope α β))
  | [] => none
  | scope :: outer =>
    match scope.kind with
    | .tryTable catches =>
      match catches.find? (a.handlers.catches a.engine · x) with
      | some clause => some (scope, clause, outer)
      | none => findScope x outer
    | _ => findScope x outer

/-- An exception leaves the scopes up to the one that catches it and branches from
there.  Its payload has to fit on the operand stack of the engine. -/
def raise (x : ε) (c : Config α β) (s : σ) : Progress (Config α β) σ (Completion ε) :=
  match findScope a x c.scopes with
  | none => .done (.throw x) s
  | some (scope, clause, outer) =>
    match a.handlers.caught a.engine clause x s with
    | .error fault => .done (.fault fault) s
    | .ok (s, values) =>
      match stackPushAll values (scope.below ++ belows outer) with
      | none => .done (.fault .stackOverflow) s
      | some _ =>
        branch a clause.depth { c with scopes := outer, operands := values ++ scope.below } s

def enter (kind : BlockKind) (type : BlockType) (inner rest : Body α β) (c : Config α β) (s : σ) :
    Progress (Config α β) σ (Completion ε) :=
  let (params, results) := blockArity a.types type
  if params ≤ c.operands.length then
    let scope : Scope α β :=
      { kind := kind
        arity := if kind = .loop then params else results
        inner := inner
        rest := rest
        below := c.operands.drop params }
    .next { c with
      body := inner, scopes := scope :: c.scopes, operands := c.operands.take params } s
  else .done (.fault (.operandMissing "block parameters missing")) s

/-- A call whose target and arguments are known. -/
def stepCall (tail : Bool) (site : Except Fault CallSite) (c : Config α β) (s : σ) :
    Progress (Config α β) σ (Completion ε) :=
  match site with
  | .error fault => .done (.fault fault) s
  | .ok site =>
    let reply := a.callee site.engine site.func site.args s
    if tail then .done reply.1 reply.2
    else
      match reply.1 with
      | .values values => .next { c with operands := values.reverse ++ site.operands } reply.2
      | .throw x => raise a x { c with operands := site.operands } reply.2
      | answer => .done answer reply.2

/-- Pop operands of the innermost scope. -/
def pops (n : Nat) (missing : String) (c : Config α β) (s : σ)
    (k : List Value → Config α β → Progress (Config α β) σ (Completion ε)) :
    Progress (Config α β) σ (Completion ε) :=
  match stackPopN n c.operands with
  | none => .done (.fault (.operandMissing missing)) s
  | some (popped, operands) => k popped { c with operands := operands }

/-- An instruction that is no bracket; `c` goes on behind it. -/
def stepBasic (instr : Basic α β) (c : Config α β) (s : σ) :
    Progress (Config α β) σ (Completion ε) :=
  match instr with
  | .unreachable => .done (.fault (.trap "unreachable")) s
  | .nop => .next c s
  | .br depth => branch a depth c s
  | .brIf depth =>
    match c.operands with
    | [] => .done (.fault (.operandMissing "br_if condition missing")) s
    | condition :: operands =>
      let c := { c with operands := operands }
      if condition.i32 = 0 then .next c s else branch a depth c s
  | .brTable depths fallback =>
    match c.operands with
    | [] => .done (.fault (.operandMissing "br_table index missing")) s
    | index :: operands =>
      branch a ((depths[index.i32.toNat]?).getD fallback) { c with operands := operands } s
  | .brOn op depth =>
    let handler := a.handlers.branch a.engine op
    c.pops handler.pops handler.missing s fun popped c =>
      if handler.accepts popped then
        match handler.compute s popped with
        | (taken, values) =>
          let c := { c with operands := values ++ c.operands }
          if taken then branch a depth c s else .next c s
      else .done (.fault (.operandMissing handler.missing)) s
  | .return_ => c.return_ a s
  | .localGet index =>
    match c.locals[index]? with
    | none => .done (.fault .unchecked) s
    | some value => .next { c with operands := value :: c.operands } s
  | .localSet index =>
    match c.operands with
    | [] => .done (.fault (.operandMissing "local value missing")) s
    | value :: operands =>
      if index < c.locals.length then
        .next { c with operands := operands, locals := c.locals.set index value } s
      else .done (.fault .unchecked) s
  | .localTee index =>
    match c.operands with
    | [] => .done (.fault (.operandMissing "local value missing")) s
    | value :: _ =>
      if index < c.locals.length then .next { c with locals := c.locals.set index value } s
      else .done (.fault .unchecked) s
  | .plain op =>
    let handler := a.handlers.plain a.engine op
    c.pops handler.pops handler.missing s fun popped c =>
      if handler.accepts popped then
        match handler.compute s popped with
        | .ok s values => .next { c with operands := values ++ c.operands } s
        | .fault x s => .done (.fault x) s
        | .throw x s => raise a x c s
      else .done (.fault (.operandMissing handler.missing)) s
  | .call func => stepCall a false (callSite a.prog a.engine func c.operands) c s
  | .callIndirect type table =>
    stepCall a false (callIndirectSite a.handlers a.prog a.engine type table c.operands s) c s
  | .callRef type => stepCall a false (callRefSite a.prog a.engine type c.operands) c s
  | .returnCall func => stepCall a true (callSite a.prog a.engine func c.operands) c s
  | .returnCallIndirect type table =>
    stepCall a true (callIndirectSite a.handlers a.prog a.engine type table c.operands s) c s
  | .returnCallRef type => stepCall a true (callRefSite a.prog a.engine type c.operands) c s

/-- One step of the reference semantics. -/
def step (c : Config α β) (s : σ) : Progress (Config α β) σ (Completion ε) :=
  match c.body with
  | .nil =>
    match c.scopes with
    | [] => .done (.values c.operands.reverse) s
    | scope :: outer =>
      .next { c with
        body := scope.rest, scopes := outer, operands := c.operands ++ scope.below } s
  | .basic instr rest => stepBasic a instr { c with body := rest } s
  | .block kind type inner rest =>
    match blockCondition kind c.operands with
    | none => .done (.fault (.operandMissing "if condition missing")) s
    | some (condition, operands) =>
      enter a kind type (if condition then inner else .nil) rest { c with operands := operands } s
  | .ifElse type then_ else_ rest =>
    match blockCondition .if_ c.operands with
    | none => .done (.fault (.operandMissing "if condition missing")) s
    | some (condition, operands) =>
      enter a .if_ type (if condition then then_ else else_) rest { c with operands := operands } s

/-- The instruction that runs next, when it is no bracket, and all operands. -/
def observe (c : Config α β) : Option (Basic α β × List Value) :=
  match c.body with
  | .basic instr _ => some (instr, c.operands ++ belows c.scopes)
  | _ => none

end Config

def structuredMachine (a : Activation α β σ ε) :
    Machine (Config α β) σ (Completion ε) (Basic α β × List Value) where
  step := Config.step a
  observe := Config.observe

def Body.start (body : Body α β) (locals : List Value) : Config α β :=
  { body := body, scopes := [], operands := [], locals := locals }

end Waste.Exec
