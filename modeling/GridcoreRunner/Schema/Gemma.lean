import GridcoreRunner.Schema.Native
import GridcoreRunner.Template.ArgumentFormat

/-!
# gemma4 turns

The grammar of a native gemma4 call. An array is spelled out element by element, and every
value takes a slot of a budget that one turn shares. Where the source casts a bound outside
of `int`, which leaves its value open, the bound is kept.
-/

namespace GridcoreRunner.Schema

set_option autoImplicit false

open GridcoreRunner.Json GridcoreRunner.Template

/-- `G4_MAX_ITEMS` -/
def g4MaxItems : Nat := 24

/-- `G4_MAX_DEPTH` -/
def g4MaxDepth : Nat := 6

/-- `G4_MAX_EXPANSIONS` -/
def g4MaxExpansions : Nat := 50000

/-- A compiled grammar, and the slots that are left behind it. -/
abbrev Slotted := Compiled (Snode × Nat)

/-- `jv_num` -/
def jvNum (v : Option Jv) (dflt : ℚ) : ℚ :=
  match v with
  | some (.num d) => d
  | _ => dflt

def g4Message (what : Bytes) (text : String) : Bytes := bytesOf "gemma4 " ++ what ++ bytesOf text

/-- The admissible lengths of an array. -/
def g4MaxOf (schema : Jv) : Nat :=
  let most := jvNum (field schema "maxItems") g4MaxItems
  if 0 < most ∧ most < g4MaxItems then ⌊most⌋.toNat else g4MaxItems

def g4MinOf (schema : Jv) : Nat := min ⌊jvNum (field schema "minItems") 0⌋.toNat (g4MaxOf schema)

/-- Element `i` of an array in front of those behind it. -/
def g4Element (i : Nat) (value tail : Snode) : Snode :=
  .seq ((if 1 < i then [atemLit [comma]] else []) ++ [value, tail]) true

/-- An element from which on the array may close. -/
def g4Closable (closable : Bool) (element : Snode) : Snode :=
  if closable then .union [atemLit [rbracket], element] true else element

/-- The loop of `g4_array`, from the last element down. -/
def g4Elements (value : Nat → Slotted) (least : Nat) : Nat → Snode → Nat → Slotted
  | 0, tail, budget => .ok (tail, budget)
  | i + 1, tail, budget => do
      let (element, budget) ← value budget
      g4Elements value least i
        (g4Closable (decide (least < i + 1)) (g4Element (i + 1) element tail)) budget

/-- `g4_array` -/
def g4Array (value : Jv → Bytes → Nat → Slotted) (schema : Jv) (what : Bytes) (budget : Nat) :
    Slotted :=
  match (field schema "items").filter isObject with
  | none => .error (g4Message what " is an array without an `items` schema")
  | some items => do
      let (tail, budget) ← g4Elements (value items what) (g4MinOf schema) (g4MaxOf schema)
        (atemLit [rbracket]) budget
      return (.seq [atemLit [lbracket], tail] true, budget)

/-- The properties of an object in the order of `jv_dictsort`. -/
def sortedMembers (props : Jv) : List (Bytes × Jv) :=
  (jvDictsort ((jvMembers props).map Prod.fst)).filterMap fun i => (jvMembers props)[i]?

/-- `what2`, in its buffer of 96 bytes. -/
def g4Path (what key : Bytes) : Bytes := (what ++ [dot] ++ key).take 95

/-- The loop of `g4_object`. -/
def g4Members (value : Jv → Bytes → Nat → Slotted) (what : Bytes) :
    List (Bytes × Jv) → Nat → Compiled (List (Member Snode) × Nat)
  | [], budget => .ok ([], budget)
  | (key, schema) :: rest, budget => do
      let (node, budget) ← value schema (g4Path what key) budget
      let (members, budget) ← g4Members value what rest budget
      return ({ key := key ++ [colon], nextKey := comma :: key ++ [colon], req := false,
                value := node } :: members, budget)

/-- `g4_object` -/
def g4Object (value : Jv → Bytes → Nat → Slotted) (schema : Jv) (what : Bytes) (budget : Nat) :
    Slotted :=
  match (field schema "properties").filter isObject with
  | none => .error (g4Message what " is an object without declared `properties`")
  | some props => do
      require ((jvMembers props).length ≤ 60) (g4Message what " has too many properties (max 60)")
      let sorted := sortedMembers props
      let (members, budget) ← g4Members value what sorted budget
      let flags ← nativeMembersRequired (some schema) (sorted.map Prod.fst)
      return (.seq [atemLit [lbrace], .members (flagged members flags) [rbrace]] true, budget)

/-- The token that delimits a string. -/
def g4Quote : Bytes := bytesOf "<|\"|>"

/-- The type of a value; without one, an enumeration of strings is a string. -/
def g4Type (schema : Jv) : Option Bytes :=
  (jvStr (field schema "type")).or <|
    match field schema "enum" with
    | some (.arr items) =>
        if !items.isEmpty && items.all fun item => (jvStr (some item)).isSome then
          some (bytesOf "string")
        else none
    | _ => none

/-- A string: one of an enumeration, or text up to the delimiter. -/
def g4String (schema : Jv) (what : Bytes) : Compiled Snode :=
  let texts := jvStrings (field schema "enum")
  if !texts.isEmpty && texts.length ≤ 60 then
    if texts.all Option.isSome then
      .ok (.enum (texts.reduceOption.map fun text => g4Quote ++ text ++ g4Quote) false true)
    else .error (g4Message what " has a non-string enum value")
  else
    let most := jvNum (field schema "maxLength") (-1)
    let body := if 0 < most then atemRawBounded g4Quote ⌊most⌋.toNat else atemRaw g4Quote
    .ok (.seq [atemLit g4Quote, body] true)

/-- `g4_value` with so many levels left. -/
def g4Value : Nat → Jv → Bytes → Nat → Slotted
  | 0, _, what, _ => .error (g4Message what " nests deeper than 6 levels")
  | _ + 1, _, what, 0 =>
      .error (g4Message what (" expands past 50000 value slots: this family's native call syntax " ++
        "needs one compiled slot per admissible array element, so nested arrays multiply -- " ++
        "declare maxItems on them"))
  | left + 1, schema, what, budget + 1 =>
      match g4Type schema with
      | none =>
          .error (g4Message what (" has no declared `type`: this family's native call syntax has " ++
            "no spelling for a free-form value, so it cannot be constrained"))
      | some type =>
          let leaf (node : Compiled Snode) : Slotted := node.map fun n => (n, budget)
          if type = bytesOf "string" then leaf (g4String schema what)
          else if type = bytesOf "boolean" then leaf (.ok (.enum [trueText, falseText] false true))
          else if type = bytesOf "null" then leaf (.ok (atemLit nullText))
          else if type = bytesOf "integer" ∨ type = bytesOf "number" then
            leaf (schemaCompile (some schema))
          else if type = bytesOf "array" then g4Array (g4Value left) schema what budget
          else if type = bytesOf "object" then g4Object (g4Value left) schema what budget
          else .error (g4Message what " has unsupported type \"" ++ type ++ bytesOf "\"")

/-- The arguments of a call, at depth 0. -/
def g4Arguments (params props : Option Jv) (name : Bytes) (budget : Nat) : Slotted :=
  if props.any fun props => !(jvMembers props).isEmpty then
    g4Object (g4Value g4MaxDepth) (params.getD .null) name budget
  else .ok (atemLit (bytesOf "\x7b\x7d"), budget)

/-- `g4_call_tail` -/
def g4CallTail (tool : Jv) (budget : Nat) : Slotted := do
  let fn := calledFunction tool
  let name := (toolName fn).getD (bytesOf "tool")
  let params := field fn "parameters"
  let props := params.bind fun params => field params "properties"
  require (props.all isObject)
    (bytesOf "gemma4 tool " ++ name ++ bytesOf ": parameters.properties must be an object")
  let (args, budget) ← g4Arguments params props name budget
  return (.seq [args, atemLit (bytesOf "<tool_call|>")] true, budget)

/-- The branches of `g4_call`. -/
def g4Branches (onlyTool : Option Bytes) :
    List (Jv × Nat) → Nat → Compiled (List (Bytes × Snode) × Nat)
  | [], budget => .ok ([], budget)
  | (tool, i) :: rest, budget =>
      let nameless := bytesOf "gemma4 tool " ++ Decimal.ofNat i ++ bytesOf " has no function name"
      match toolName (calledFunction tool) with
      | none => .error nameless
      | some name =>
          if name.isEmpty then .error nameless
          else if selectable onlyTool (some name) then do
            let (tail, budget) ← g4CallTail tool budget
            let (branches, budget) ← g4Branches onlyTool rest budget
            return ((name, tail) :: branches, budget)
          else g4Branches onlyTool rest budget

/-- `g4_call` -/
def g4Call (tools : List Jv) (onlyTool : Option Bytes) (lead : Bool) (budget : Nat) : Slotted := do
  require (tools.any fun tool => selectable onlyTool (toolName (calledFunction tool)))
    (bytesOf "named gemma4 tool is not declared")
  let (branches, budget) ← g4Branches onlyTool tools.zipIdx budget
  let opening := if lead then [atemLit (bytesOf "<|tool_call>call:")] else []
  return (.seq (opening ++ selection branches true) true, budget)

/-- `g4_final` -/
def g4Final (finalSchema : Option Jv) : Compiled Snode := bodyOf finalSchema (bytesOf "<turn|>")

/-- A call, or the answer where one is allowed. -/
def g4Answered (call : Snode) (allowFinal : Bool) (finalSchema : Option Jv) : Compiled Snode :=
  if allowFinal then (g4Final finalSchema).map fun fin => .union [call, fin] true else .ok call

/-- `g4_body` -/
def g4Body (tools : List Jv) (allowFinal : Bool) (onlyTool : Option Bytes)
    (finalSchema : Option Jv) (budget : Nat) : Slotted := do
  let (call, budget) ← g4Call tools onlyTool true budget
  let body ← g4Answered call allowFinal finalSchema
  return (body, budget)

/-- The rest of a turn behind an open thought. -/
def g4Thought (rest : Snode) : Snode := .seq [atemRaw (bytesOf "<channel|>"), rest] true

/-- `schema_compile_gemma4_turn` -/
def schemaCompileGemma4Turn (tools : Option Jv) (allowFinal : Bool) (onlyTool : Option Bytes)
    (finalSchema : Option Jv) (allowReasoning primedReasoning : Bool) : Compiled Snode := do
  let items ← declaredTools tools 60
    (bytesOf "gemma4 tools must be a non-empty array of at most 60 tools")
  let (body, budget) ← g4Body items allowFinal onlyTool finalSchema g4MaxExpansions
  if primedReasoning then return g4Thought body
  else if !allowReasoning then return body
  else
    let (call, _) ← g4Call items onlyTool false budget
    let marked := selection [(bytesOf "<|channel>thought\n", g4Thought body),
      (bytesOf "<|tool_call>call:", call)] true
    g4Answered (.seq marked true) allowFinal finalSchema

/-- `schema_compile_gemma4_parallel` -/
def schemaCompileGemma4Parallel (tools : Jv) (onlyTool : Option Bytes) : Compiled Snode := do
  let (first, budget) ← g4Call (jvItems tools) onlyTool true g4MaxExpansions
  let (second, _) ← g4Call (jvItems tools) onlyTool true budget
  return .seq [first, second] true

end GridcoreRunner.Schema
