import GridcoreRunner.Schema.Compile

/-!
# Native turns

The grammars of the turns that the muse and Harmony families write: sequences of literals,
raw text and the values of compiled schemas. A name that is read selects what follows it.
-/

namespace GridcoreRunner.Schema

set_option autoImplicit false

open GridcoreRunner.Json GridcoreRunner.Template

/-! ## Pieces -/

/-- `atem_lit` -/
def atemLit (text : Bytes) : Snode := .enum [text] false true

/-- `atem_raw` -/
def atemRaw (sentinel : Bytes) : Snode := .raw sentinel none

/-- `atem_raw_bounded` -/
def atemRawBounded (sentinel : Bytes) (most : Nat) : Snode := .raw sentinel (some most)

/-- The names that select what follows, and the conditional that follows. -/
def selection (branches : List (Bytes × Snode)) (ws : Bool) : List Snode :=
  [.enum (branches.map Prod.fst) true true, .cond (branches.map Prod.snd) ws]

/-- `native_members_required`: the flags of the members in their order. -/
def nativeMembersRequired (params : Option Jv) (keys : List Bytes) : Compiled (List Bool) :=
  match params.bind fun params => field params "required" with
  | none => .ok (keys.map fun _ => false)
  | some (.arr names) => do
      let found ← names.mapM fun name =>
        match (jvStr (some name)).bind keys.idxOf? with
        | some i => .ok i
        | none =>
            .error (bytesOf "required key '" ++ (jvStr (some name)).getD (bytesOf "?") ++
              bytesOf "' not in properties")
      return (List.range keys.length).map found.contains
  | some _ => .error (bytesOf "required must be an array")

/-- Members with their flags. -/
def flagged (members : List (Member Snode)) (flags : List Bool) : List (Member Snode) :=
  members.zipWith (fun member req => { member with req := req }) flags

/-- The object that declares a function. -/
def calledFunction (tool : Jv) : Jv := (field tool "function").getD tool

def toolName (fn : Jv) : Option Bytes := jvStr (field fn "name")

/-- The tools of an array of at most so many, and at least one. -/
def declaredTools (tools : Option Jv) (most : Nat) (message : Bytes) : Compiled (List Jv) :=
  match tools with
  | some (.arr items) =>
      if items.isEmpty || decide (most < items.length) then .error message else .ok items
  | _ => .error message

/-- The tools that a request may call, none beside a single one that it names. -/
def selectable (onlyTool : Option Bytes) (name : Option Bytes) : Bool :=
  onlyTool.isNone || name.isSome && name == onlyTool

/-- The branches of the tools that have a name and are not passed over. -/
def toolBranches (tools : List Jv) (onlyTool : Option Bytes) (nameless : Nat → Bytes)
    (tail : Bytes → Jv → Compiled Snode) : Compiled (List (Bytes × Snode)) := do
  let branches ← tools.zipIdx.mapM fun (tool, i) =>
    match toolName (calledFunction tool) with
    | none => .error (nameless i)
    | some name =>
        if name.isEmpty then .error (nameless i)
        else if selectable onlyTool (some name) then (tail name tool).map fun n => some (name, n)
        else .ok none
  return branches.reduceOption

/-- A value by its schema, or raw text without one. -/
def bodyOf (schema : Option Jv) (sentinel : Bytes) : Compiled Snode :=
  match schema with
  | some schema => schemaCompile (some schema)
  | none => .ok (atemRaw sentinel)

/-! ## muse -/

/-- A parameter of a tool: a structured value by its schema, and any text for another. -/
def atemParameter (key : Bytes) (schema : Jv) : Compiled (Member Snode) := do
  let type := (jvStr (field schema "type")).getD []
  let structured := type == bytesOf "object" || type == bytesOf "array"
  let opening := bytesOf "<atem:parameter name=\"" ++ key ++ bytesOf "\">"
  let close := bytesOf "</atem:parameter>"
  let value ← bodyOf (if structured then some schema else none) close
  let rest := if structured then [atemLit close] else []
  return { key := opening, nextKey := opening, req := false
           value := .seq (value :: (rest ++ [atemLit (bytesOf "\n")])) false }

/-- Without declared properties nothing is asked of the required names. -/
def atemRequired (params props : Option Jv) (keys : List Bytes) : Compiled (List Bool) :=
  if props.isSome then nativeMembersRequired params keys else .ok []

/-- `atem_tool_tail` -/
def atemToolTail (tool : Jv) : Compiled Snode := do
  let params := field (calledFunction tool) "parameters"
  let props := params.bind fun params => field params "properties"
  require (props.all isObject) (bytesOf "atem tool parameters.properties must be an object")
  let declared := (props.map jvMembers).getD []
  require (declared.length ≤ 60) (bytesOf "atem tool has too many parameters (max 60)")
  let members ← declared.mapM fun (key, schema) => atemParameter key schema
  let flags ← atemRequired params props (declared.map Prod.fst)
  return .seq [atemLit (bytesOf "\">\n"),
    .members (flagged members flags) (bytesOf "</atem:invoke>\n</atem:function_calls>")] false

/-- `schema_compile_atem_tools` -/
def schemaCompileAtemTools (tools : Option Jv) : Compiled Snode := do
  let items ← declaredTools tools 60
    (bytesOf "atem tools must be a non-empty array of at most 60 tools")
  let branches ← toolBranches items none
    (fun i => bytesOf "atem tool " ++ Decimal.ofNat i ++ bytesOf " has no function name")
    (fun _ tool => atemToolTail tool)
  return .seq (atemLit (bytesOf "<atem:function_calls>\n<atem:invoke name=\"") ::
    selection branches false) false

/-- A call behind the name of its tool. -/
def atemCall (name : Bytes) (tool : Jv) : Compiled Snode := do
  let tail ← atemToolTail tool
  return .seq [atemLit (bytesOf "<|message|><atem:function_calls>\n<atem:invoke name=\""),
    atemLit name, tail] false

/-- The branch of an answer to the user, where one is allowed. -/
def atemAnswers (allowUser : Bool) (finalSchema : Option Jv) : Compiled (List (Bytes × Snode)) :=
  if allowUser then
    (bodyOf finalSchema (bytesOf "<|eot|>")).map fun value =>
      [(bytesOf "user", .seq [atemLit (bytesOf "<|message|>"), value] false)]
  else .ok []

/-- `schema_compile_atem_turn_prefix` -/
def schemaCompileAtemTurnPrefix (tools : Option Jv) (allowUser : Bool) (onlyTool : Option Bytes)
    (finalSchema : Option Jv) (lead : Bytes) : Compiled Snode := do
  let items ← declaredTools tools 59 (bytesOf "atem turn needs 1 to 59 tools")
  require (items.any fun tool => selectable onlyTool (toolName (calledFunction tool)))
    (bytesOf "named atem tool is not declared")
  let calls ← toolBranches items onlyTool
    (fun i => bytesOf "atem tool " ++ Decimal.ofNat i ++ bytesOf " has no name") atemCall
  let answers ← atemAnswers allowUser finalSchema
  return .seq ((if lead.isEmpty then [] else [atemLit lead]) ++ selection (calls ++ answers) true)
    (lead.head? == some 0x20)

/-- `enum atem_turn_start` -/
inductive AtemTurnStart
  | direct | afterReasoning | either
deriving DecidableEq

/-- `schema_compile_atem_turn` -/
def schemaCompileAtemTurn (tools : Option Jv) (allowUser : Bool) (onlyTool : Option Bytes)
    (finalSchema : Option Jv) (start : AtemTurnStart) : Compiled Snode :=
  let turn := schemaCompileAtemTurnPrefix tools allowUser onlyTool finalSchema
  match start with
  | .direct => turn (bytesOf " to=")
  | .afterReasoning => turn []
  | .either => do
      let direct ← turn (bytesOf " to=")
      let after ← turn []
      return .union [direct, after] true

/-- `schema_compile_atem_parallel` -/
def schemaCompileAtemParallel (tools : Option Jv) (onlyTool : Option Bytes) : Compiled Snode := do
  let first ← schemaCompileAtemTurn tools false onlyTool none .direct
  let second ← schemaCompileAtemTurn tools false onlyTool none .direct
  return .seq [first, atemLit (bytesOf "assistant"), second] true

/-- `schema_compile_muse_user_payload` -/
def schemaCompileMuseUserPayload (schema : Option Jv) : Compiled Snode := do
  let direct ← schemaCompile schema
  let after ← schemaCompile schema
  return .union [.seq [atemLit (bytesOf " to=user<|message|>"), direct] true,
    .seq [atemLit (bytesOf "user<|message|>"), after] false] true

/-! ## Harmony -/

/-- The name in a tool's `function`, which has to be there. -/
def harmonyName (tool : Jv) : Option Bytes := (field tool "function").bind toolName

/-- The arguments of a call; a tool without parameters takes an empty object. -/
def harmonyArguments (tool : Jv) : Compiled Snode :=
  let tail (args : Snode) : Snode :=
    .seq [atemLit (bytesOf "<|constrain|>json<|message|>"), args] true
  match (field tool "function").bind fun fn => field fn "parameters" with
  | some params => (schemaCompile (some params)).map tail
  | none => .ok (tail (atemLit (bytesOf "\x7b\x7d")))

/-- `harmony_call_select` -/
def harmonyCallSelect (tools : List Jv) (onlyTool : Option Bytes) (lead : Option Bytes) :
    Compiled Snode := do
  let chosen := tools.filter fun tool =>
    (harmonyName tool).isSome && selectable onlyTool (harmonyName tool)
  require (!chosen.isEmpty) (if onlyTool.isSome then bytesOf "named Harmony tool is not declared"
    else bytesOf "Harmony tools have no function names")
  let branches ← chosen.mapM fun tool =>
    (harmonyArguments tool).map fun n => ((harmonyName tool).getD [], n)
  return .seq ((lead.map atemLit).toList ++ selection branches true) true

def toFunctions : Option Bytes := some (bytesOf " to=functions.")

/-- The branch of a final answer, where one is allowed. -/
def harmonyFinals (allowFinal : Bool) (finalSchema : Option Jv) :
    Compiled (List (Bytes × Snode)) :=
  if allowFinal then
    (bodyOf finalSchema (bytesOf "<|return|>")).map fun body =>
      [(bytesOf "final", .seq [atemLit (bytesOf "<|message|>"), body] true)]
  else .ok []

/-- `harmony_after_reasoning` -/
def harmonyAfterReasoning (tools : List Jv) (onlyTool : Option Bytes) (allowFinal : Bool)
    (finalSchema : Option Jv) : Compiled Snode := do
  let call ← harmonyCallSelect tools onlyTool toFunctions
  let finals ← harmonyFinals allowFinal finalSchema
  return .seq (atemLit (bytesOf "<|message|>") ::
    atemRawBounded (bytesOf "<|end|><|start|>assistant<|channel|>") 192 ::
    selection ((bytesOf "commentary", call) :: finals) true) true

/-- `harmony_full_call` -/
def harmonyFullCall (tools : List Jv) (onlyTool : Option Bytes) : Compiled Snode := do
  let call ← harmonyCallSelect tools onlyTool toFunctions
  return .seq [atemLit (bytesOf "<|channel|>commentary"), call] true

/-- `harmony_commentary_tail` -/
def harmonyCommentaryTail (tools : List Jv) (onlyTool : Option Bytes) (allowPreamble : Bool) :
    Compiled Snode := do
  let direct ← harmonyCallSelect tools onlyTool toFunctions
  if allowPreamble then
    let call ← harmonyFullCall tools onlyTool
    return .union [direct, .seq [atemLit (bytesOf "<|message|>"),
      atemRawBounded (bytesOf "<|end|><|start|>assistant") 192, call] true] true
  else return direct

/-- The branch of the analysis, where one is allowed. -/
def harmonyAnalysis (tools : List Jv) (onlyTool : Option Bytes) (allowFinal : Bool)
    (finalSchema : Option Jv) (allowReasoning : Bool) : Compiled (List (Bytes × Snode)) :=
  if allowReasoning then
    (harmonyAfterReasoning tools onlyTool allowFinal finalSchema).map fun n =>
      [(bytesOf "analysis", n)]
  else .ok []

/-- `harmony_channel_select` -/
def harmonyChannelSelect (tools : List Jv) (onlyTool : Option Bytes) (allowFinal : Bool)
    (finalSchema : Option Jv) (allowReasoning : Bool) : Compiled Snode := do
  let analysis ← harmonyAnalysis tools onlyTool allowFinal finalSchema allowReasoning
  let commentary ← harmonyCommentaryTail tools onlyTool allowFinal
  let finals ← harmonyFinals allowFinal finalSchema
  return .seq (atemLit (bytesOf "<|channel|>") ::
    selection (analysis ++ (bytesOf "commentary", commentary) :: finals) true) true

/-- `schema_compile_harmony_turn` -/
def schemaCompileHarmonyTurn (tools : Option Jv) (allowFinal : Bool) (onlyTool : Option Bytes)
    (finalSchema : Option Jv) (allowReasoning : Bool) : Compiled Snode := do
  let items ← declaredTools tools 60
    (bytesOf "Harmony tools must be a non-empty array of at most 60 tools")
  harmonyChannelSelect items onlyTool allowFinal finalSchema allowReasoning

end GridcoreRunner.Schema
